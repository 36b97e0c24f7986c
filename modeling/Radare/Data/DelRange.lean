import Radare.Common.Ring
import Radare.Data.Comments
import Radare.Data.Model
/-!
# Deletion of a range

`data_del_range` goes over the three tables and takes out the entries of a range,
with the next node known before one is taken out. An item is taken out by the one
test or else by the other, but the two tests of a cross reference are made one
after the other: with both its addresses in the range it is taken out twice, the
second time through the links that the first has cleared (`dataDelRange_iff`).
-/

namespace Radare

open Common

variable {N : Type*} [DecidableEq N]

/-- A table of `data.c`: the entries stand in nodes that are linked from the head
on. -/
structure Table (N α : Type*) where
  links : Links N
  head : N
  nodes : List N
  entry : N → α
  ring : Ring links head nodes

/-- The tables that `data_del_range` goes over. -/
structure MetaTables (N : Type*) where
  comments : Table N CommentT
  xrefs : Table N XrefT
  data : Table N DataT

/-! ## The code -/

/-- `addr >= from && addr <= to` -/
def InRange (from_ to_ addr : ut64) : Prop := addr ≥ from_ ∧ addr ≤ to_

instance decidableInRange (from_ to_ addr : ut64) : Decidable (InRange from_ to_ addr) :=
  inferInstanceAs (Decidable (_ ∧ _))

/-- `list_del` under a test. -/
def delIf (test : Prop) [Decidable test] (pos : N) (l : Links N) : Option (Links N) :=
  if test then unlink pos l else some l

/-- The body of the loop over the comments. -/
def commentDel (from_ to_ : ut64) (cmt : CommentT) (pos : N) (l : Links N) : Option (Links N) :=
  delIf (InRange from_ to_ cmt.offset) pos l

/-- The body of the loop over the cross references: one test, and then the
other. -/
def xrefDel (from_ to_ : ut64) (x : XrefT) (pos : N) (l : Links N) : Option (Links N) :=
  (delIf (InRange from_ to_ x.addr) pos l).bind (delIf (InRange from_ to_ x.from_) pos)

/-- The body of the loop over the items: one test, or else the other. -/
def itemDel (from_ to_ : ut64) (d : DataT) (pos : N) (l : Links N) : Option (Links N) :=
  if InRange from_ to_ d.from_ then unlink pos l else delIf (InRange from_ to_ d.to_) pos l

/-- `list_for_each_safe` over a table: the links it leaves. -/
def Table.eachSafe {α : Type*} (t : Table N α) (body : α → N → Links N → Option (Links N)) :
    Option (Links N) :=
  Common.eachSafe (fun pos => body (t.entry pos) pos) t.head (t.nodes.length + 1) t.links

/-- `data_del_range`: the links left in the three tables, with nothing for a
write through a link that is cleared. -/
def dataDelRange (t : MetaTables N) (from_ to_ : ut64) : Option (Links N × Links N × Links N) :=
  (t.comments.eachSafe (commentDel from_ to_)).bind fun comments =>
    (t.xrefs.eachSafe (xrefDel from_ to_)).bind fun xrefs =>
      (t.data.eachSafe (itemDel from_ to_)).map fun data => (comments, xrefs, data)

/-! ## What it is for -/

/-- The links go through the nodes whose entries stay, in order. -/
def Table.Left {α : Type*} (t : Table N α) (gone : α → Prop) [DecidablePred gone] (l : Links N) :
    Prop :=
  Ring l t.head (t.nodes.filter fun pos => ¬gone (t.entry pos))

/-- The entries of the range are gone, and the others are there in order. -/
def DelRangeRight (t : MetaTables N) (from_ to_ : ut64) : Prop :=
  ∃ comments xrefs data, dataDelRange t from_ to_ = some (comments, xrefs, data) ∧
    t.comments.Left (fun cmt => InRange from_ to_ cmt.offset) comments ∧
    t.xrefs.Left (fun x => InRange from_ to_ x.addr ∨ InRange from_ to_ x.from_) xrefs ∧
    t.data.Left (fun d => InRange from_ to_ d.from_ ∨ InRange from_ to_ d.to_) data

/-! ## The loops -/

/-- How often `list_del` is called under tests. -/
def delTimes (test : Prop) [Decidable test] : ℕ := if test then 1 else 0

theorem delIf_eq (test : Prop) [Decidable test] (pos : N) :
    delIf test pos = unlinks pos (delTimes test) := by
  funext l
  unfold delIf delTimes
  split_ifs
  · exact (Option.bind_fun_some (unlink pos l)).symm
  · rfl

variable {α : Type*} {t : Table N α} {body : α → N → Links N → Option (Links N)}
variable {times : α → ℕ}

/-- **The loop over a table** that takes out no node twice. -/
theorem Table.eachSafe_left (gone : α → Prop) [DecidablePred gone]
    (hbody : ∀ a pos, body a pos = unlinks pos (times a))
    (hgone : ∀ a, ¬gone a ↔ times a = 0) (hone : ∀ pos ∈ t.nodes, times (t.entry pos) ≤ 1) :
    ∃ l, t.eachSafe body = some l ∧ t.Left gone l := by
  obtain ⟨l, hl, hring⟩ := t.ring.sweep (fun pos => times (t.entry pos)) hone
    (Nat.lt_succ_self _)
  refine ⟨l, ?_, ?_⟩
  · rw [Table.eachSafe, funext fun pos => hbody (t.entry pos) pos]
    exact hl
  · unfold Table.Left
    convert hring using 2
    exact funext fun pos => decide_eq_decide.mpr (hgone (t.entry pos))

/-- **The loop over a table** that takes out a node twice. -/
theorem Table.eachSafe_eq_none (hbody : ∀ a pos, body a pos = unlinks pos (times a))
    (htwice : ∃ pos ∈ t.nodes, 2 ≤ times (t.entry pos)) : t.eachSafe body = none := by
  rw [Table.eachSafe, funext fun pos => hbody (t.entry pos) pos]
  exact t.ring.sweep_eq_none (fun pos => times (t.entry pos)) htwice

/-! ## The bodies -/

variable {from_ to_ : ut64}

/-- The two tests of a cross reference are counted together. -/
theorem xrefDel_eq (from_ to_ : ut64) (x : XrefT) (pos : N) :
    xrefDel from_ to_ x pos =
      unlinks pos (delTimes (InRange from_ to_ x.addr) + delTimes (InRange from_ to_ x.from_)) := by
  funext l
  rw [xrefDel, delIf_eq, delIf_eq, unlinks_add]

/-- Of the two tests of an item, one counts. -/
theorem itemDel_eq (from_ to_ : ut64) (d : DataT) (pos : N) :
    itemDel from_ to_ d pos =
      unlinks pos (delTimes (InRange from_ to_ d.from_ ∨ InRange from_ to_ d.to_)) := by
  funext l
  rw [← delIf_eq, itemDel, delIf, delIf]
  by_cases hfrom : InRange from_ to_ d.from_
  · rw [if_pos hfrom, if_pos (Or.inl hfrom)]
  · rw [if_neg hfrom]
    exact if_congr (or_iff_right hfrom).symm rfl rfl

theorem delTimes_le_one (test : Prop) [Decidable test] : delTimes test ≤ 1 := by
  unfold delTimes
  split_ifs <;> omega

theorem delTimes_eq_zero_iff (test : Prop) [Decidable test] : delTimes test = 0 ↔ ¬test := by
  by_cases htest : test
  · rw [delTimes, if_pos htest]
    exact iff_of_false Nat.one_ne_zero (not_not_intro htest)
  · rw [delTimes, if_neg htest]
    exact iff_of_true rfl htest

/-- A cross reference is taken out twice if both its addresses are in the range. -/
theorem two_le_delTimes_iff (test test' : Prop) [Decidable test] [Decidable test'] :
    2 ≤ delTimes test + delTimes test' ↔ test ∧ test' := by
  unfold delTimes
  split_ifs with h h' h'
  · exact iff_of_true (by omega) ⟨h, h'⟩
  · exact iff_of_false (by omega) fun hboth => h' hboth.2
  · exact iff_of_false (by omega) fun hboth => h hboth.1
  · exact iff_of_false (by omega) fun hboth => h hboth.1

/-! ## The result -/

theorem comments_left (t : Table N CommentT) (from_ to_ : ut64) :
    ∃ l, t.eachSafe (commentDel from_ to_) = some l ∧
      t.Left (fun cmt => InRange from_ to_ cmt.offset) l :=
  Table.eachSafe_left _ (fun cmt pos => delIf_eq (InRange from_ to_ cmt.offset) pos)
    (fun _ => (delTimes_eq_zero_iff _).symm) fun _ _ => delTimes_le_one _

theorem data_left (t : Table N DataT) (from_ to_ : ut64) :
    ∃ l, t.eachSafe (itemDel from_ to_) = some l ∧
      t.Left (fun d => InRange from_ to_ d.from_ ∨ InRange from_ to_ d.to_) l :=
  Table.eachSafe_left _ (itemDel_eq from_ to_)
    (fun _ => (delTimes_eq_zero_iff _).symm) fun _ _ => delTimes_le_one _

theorem xrefs_left (t : Table N XrefT)
    (hone : ∀ pos ∈ t.nodes, ¬(InRange from_ to_ (t.entry pos).addr ∧
      InRange from_ to_ (t.entry pos).from_)) :
    ∃ l, t.eachSafe (xrefDel from_ to_) = some l ∧
      t.Left (fun x => InRange from_ to_ x.addr ∨ InRange from_ to_ x.from_) l := by
  refine Table.eachSafe_left _ (xrefDel_eq from_ to_) (fun x => ?_) fun pos hpos => ?_
  · rw [Nat.add_eq_zero_iff, delTimes_eq_zero_iff, delTimes_eq_zero_iff, not_or]
  · have htwo := mt (two_le_delTimes_iff _ _).mp (hone pos hpos)
    omega

/-- **When a range is deleted right**: if and only if no cross reference has both
its addresses in the range. -/
theorem dataDelRange_iff (t : MetaTables N) (from_ to_ : ut64) :
    DelRangeRight t from_ to_ ↔ ∀ pos ∈ t.xrefs.nodes,
      ¬(InRange from_ to_ (t.xrefs.entry pos).addr ∧
        InRange from_ to_ (t.xrefs.entry pos).from_) := by
  constructor
  · rintro ⟨comments, xrefs, data, hrun, -⟩ pos hpos hboth
    obtain ⟨_, -, hrest⟩ := Option.bind_eq_some_iff.mp hrun
    obtain ⟨l, hl, -⟩ := Option.bind_eq_some_iff.mp hrest
    rw [Table.eachSafe_eq_none (xrefDel_eq from_ to_)
      ⟨pos, hpos, (two_le_delTimes_iff _ _).mpr hboth⟩] at hl
    exact absurd hl (by simp)
  · intro hone
    obtain ⟨comments, hcomments, hcleft⟩ := comments_left t.comments from_ to_
    obtain ⟨xrefs, hxrefs, hxleft⟩ := xrefs_left t.xrefs hone
    obtain ⟨data, hdata, hdleft⟩ := data_left t.data from_ to_
    refine ⟨comments, xrefs, data, ?_, hcleft, hxleft, hdleft⟩
    rw [dataDelRange, hcomments, Option.bind_some, hxrefs, Option.bind_some, hdata]
    rfl

/-- A table with one entry, and one without. -/
def Table.one {α : Type} (a : α) : Table Bool α where
  links := ⟨fun pos => some !pos, fun pos => some !pos⟩
  head := false
  nodes := [true]
  entry _ := a
  ring := ⟨by decide, ⟨rfl, rfl⟩, ⟨rfl, rfl⟩⟩

def Table.empty {α : Type} (a : α) : Table Bool α where
  links := ⟨some, some⟩
  head := false
  nodes := []
  entry _ := a
  ring := ⟨by decide, rfl, rfl⟩

/-- A jump from `0x10` to `0x12`, and the range of both is deleted. -/
theorem both_in_range_deleted_twice :
    ¬DelRangeRight ⟨Table.empty ⟨0, []⟩, Table.one ⟨0x12, 0x10, 0⟩, Table.empty ⟨0, 0, .hex, 0, []⟩⟩
      0x10 0x20 := by
  rintro ⟨comments, xrefs, data, hrun, -⟩
  have hnone : dataDelRange ⟨Table.empty ⟨0, []⟩, Table.one ⟨0x12, 0x10, 0⟩,
    Table.empty ⟨0, 0, .hex, 0, []⟩⟩ 0x10 0x20 = none := rfl
  rw [hnone] at hrun
  cases hrun

end Radare
