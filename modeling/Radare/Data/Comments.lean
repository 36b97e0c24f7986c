import Radare.Cons.Model
import Mathlib.Data.List.Perm.Basic
/-!
# Comments

`data_comment_add` puts a comment behind the others, once one that is the same
is taken out: as `data_comment_del` does it, for which a `*` in front of the text
stands for all comments of the address, and which is asked with the text as it
is before the newline at its end is chopped off (`dataCommentAdd_once_iff`).

`data_comment_get` writes the comments of an address, the last ones if there is a
number of lines for them. That number becomes the number of comments to skip
only if there are more (`dataCommentGet_window_iff`).
-/

namespace Radare

/-- `struct comment_t`. -/
structure CommentT where
  offset : ut64
  comment : List u8
deriving DecidableEq

/-! ## The code -/

/-- `data_comment_del`. The node behind is known before one is taken out. -/
def dataCommentDel (offset : ut64) (str : List u8) : List CommentT → List CommentT
  | [] => []
  | cmt :: comments =>
    if offset = cmt.offset then
      if str.head? = some 42 then dataCommentDel offset str comments
      else if cmt.comment = str then comments
      else cmt :: dataCommentDel offset str comments
    else cmt :: dataCommentDel offset str comments

/-- A text without the newline at its end. -/
def chopNewline (str : List u8) : List u8 := if str.getLast? = some 10 then str.dropLast else str

/-- `data_comment_add`. -/
def dataCommentAdd (offset : ut64) (str : List u8) (comments : List CommentT) : List CommentT :=
  if str = [] then comments
  else dataCommentDel offset str comments ++ [⟨offset, chopNewline str⟩]

/-- `asm.cmtmargin`, as far as the blanks go. -/
def commentMargin (cmtmargin : ℤ) : ℕ :=
  if cmtmargin < 0 then 0 else if cmtmargin > 80 then 80 else cmtmargin.toNat

/-- A text in a buffer of some size. -/
structure TextBuf where
  text : List u8
  room : ℕ
deriving DecidableEq

/-- `strcat`, within the buffer. -/
def TextBuf.strcat (b : TextBuf) (s : List u8) : Option TextBuf :=
  if b.text.length + s.length < b.room then some { b with text := b.text ++ s } else none

/-- A line more: what is there already is moved to a buffer of the size for both. -/
def commentLine (margin : ℕ) (comment : List u8) (str : Option TextBuf) : Option TextBuf :=
  let buf : TextBuf := match str with
    | none => ⟨[], 1024⟩
    | some b => { b with room := margin + b.text.length + comment.length + 128 }
  (buf.strcat (List.replicate margin 32)).bind fun b => (b.strcat [59, 32]).bind fun b =>
    (b.strcat comment).bind fun b => b.strcat [10]

/-- The loop that writes the comments, behind so many of them, and so many
lines. -/
def commentLoop (offset : ut64) (margin : ℕ) :
    List CommentT → ℤ → ℤ → Option TextBuf → Option (Option TextBuf)
  | [], _, _, str => some str
  | cmt :: comments, cmtlines, lines, str =>
    if cmt.offset = offset then
      if cmtlines ≠ 0 then commentLoop offset margin comments (cmtlines - 1) lines str
      else (commentLine margin cmt.comment str).bind fun b =>
        if lines - 1 = 0 then some (some b)
        else commentLoop offset margin comments cmtlines (lines - 1) (some b)
    else commentLoop offset margin comments cmtlines lines str

/-- The comments to skip, of a number of lines for them. -/
def commentSkip (offset : ut64) (comments : List CommentT) (cmtlines : ℤ) : ℤ :=
  if cmtlines ≠ 0 then
    let i := (comments.countP fun cmt => cmt.offset = offset : ℕ)
    if i > cmtlines then i - cmtlines else cmtlines
  else cmtlines

/-- `data_comment_get`, with nothing for a line outside of its buffer: the string
returned, if there is one. -/
def dataCommentGet (comments : List CommentT) (cmtmargin cmtlines : ℤ) (offset : ut64)
    (lines : ℤ) : Option (Option (List u8)) :=
  let cmtlines := if cmtlines < 0 then 0 else cmtlines
  (commentLoop offset (commentMargin cmtmargin) comments (commentSkip offset comments cmtlines)
    lines none).map (·.map TextBuf.text)

/-! ## What they are for -/

/-- The comment is there once, all others are there as they were, and the call
made again changes nothing but the order. -/
structure AddsOnce (offset : ut64) (str : List u8) (comments : List CommentT) : Prop where
  once : (dataCommentAdd offset str comments).count ⟨offset, chopNewline str⟩ = 1
  others : (dataCommentAdd offset str comments).filter (· ≠ ⟨offset, chopNewline str⟩) =
    comments.filter (· ≠ ⟨offset, chopNewline str⟩)
  again : (dataCommentAdd offset str (dataCommentAdd offset str comments)).Perm
    (dataCommentAdd offset str comments)

/-- The comments of an address. -/
def commentsAt (offset : ut64) (comments : List CommentT) : List CommentT :=
  comments.filter fun cmt => cmt.offset = offset

/-- So many lines, or all of them. -/
def cutLines (lines : ℤ) (here : List CommentT) : List CommentT :=
  if 0 < lines then here.take lines.toNat else here

/-- The last `c` of them, or all of them, and of these the first `lines`, or all
of them. -/
def commentWindow (c : ℕ) (lines : ℤ) (here : List CommentT) : List CommentT :=
  cutLines lines (if c = 0 then here else here.drop (here.length - c))

/-- A comment as it is written. -/
def CommentT.line (margin : ℕ) (cmt : CommentT) : List u8 :=
  List.replicate margin 32 ++ [59, 32] ++ cmt.comment ++ [10]

/-- What is returned is the comments of the window, and nothing if there is no
comment. -/
def ShowsWindow (comments : List CommentT) (cmtmargin : ℤ) (c : ℕ) (offset : ut64) (lines : ℤ) :
    Prop :=
  dataCommentGet comments cmtmargin c offset lines =
    some (if commentsAt offset comments = [] then none
      else some ((commentWindow c lines (commentsAt offset comments)).flatMap
        (CommentT.line (commentMargin cmtmargin))))

variable {offset : ut64} {str : List u8} {comments here : List CommentT} {margin n : ℕ}
variable {c lines : ℤ} {b : TextBuf} {s t : List u8}

/-! ## Adding one -/

/-- A text that is no `*` takes out the first comment that has it. -/
theorem dataCommentDel_eq_erase (hstar : str.head? ≠ some 42) :
    dataCommentDel offset str comments = comments.erase ⟨offset, str⟩ := by
  induction comments with
  | nil => rfl
  | cons cmt comments ih =>
    rw [dataCommentDel, ih]
    by_cases hoff : offset = cmt.offset
    · by_cases hstr : cmt.comment = str
      · have hcmt : cmt = ⟨offset, str⟩ := by rw [hoff, ← hstr]
        rw [if_pos hoff, if_neg hstar, if_pos hstr, hcmt, List.erase_cons_head]
      · have hcmt : cmt ≠ ⟨offset, str⟩ := fun h => hstr (congrArg CommentT.comment h)
        rw [if_pos hoff, if_neg hstar, if_neg hstr, List.erase_cons_tail (by simpa using hcmt)]
    · have hcmt : cmt ≠ ⟨offset, str⟩ := fun h => hoff (congrArg CommentT.offset h).symm
      rw [if_neg hoff, List.erase_cons_tail (by simpa using hcmt)]

/-- A `*` takes out all of them. -/
theorem dataCommentDel_star (hstar : str.head? = some 42) :
    dataCommentDel offset str comments = comments.filter fun cmt => cmt.offset ≠ offset := by
  induction comments with
  | nil => rfl
  | cons cmt comments ih =>
    rw [dataCommentDel, ih]
    by_cases hoff : offset = cmt.offset
    · rw [if_pos hoff, if_pos hstar, List.filter_cons_of_neg (by simpa using hoff.symm)]
    · rw [if_neg hoff, List.filter_cons_of_pos (by simpa using Ne.symm hoff)]

theorem dataCommentAdd_eq (hne : str ≠ []) :
    dataCommentAdd offset str comments =
      dataCommentDel offset str comments ++ [⟨offset, chopNewline str⟩] :=
  if_neg hne

theorem chopNewline_ne (h : str.getLast? = some 10) : chopNewline str ≠ str := by
  intro heq
  rw [chopNewline, if_pos h] at heq
  have hlen := congrArg List.length heq
  rw [List.length_dropLast] at hlen
  have hnil : str = [] := List.length_eq_zero_iff.mp (by omega)
  rw [hnil] at h
  cases h

/-- The comment itself is not one of the others. -/
theorem filter_concat_self (l : List CommentT) (e : CommentT) :
    (l ++ [e]).filter (· ≠ e) = l.filter (· ≠ e) := by
  rw [List.filter_append, List.filter_cons_of_neg (by simp), List.filter_nil, List.append_nil]

theorem count_concat_self (l : List CommentT) (e : CommentT) : (l ++ [e]).count e = l.count e + 1 := by
  rw [List.count_append, List.count_singleton_self]

/-- With a `*` in front the other comments of the address are lost. -/
theorem addsOnce_star_iff (hne : str ≠ []) (hstar : str.head? = some 42) :
    AddsOnce offset str comments ↔
      ∀ cmt ∈ comments, cmt.offset = offset → cmt = ⟨offset, chopNewline str⟩ := by
  have hadd : ∀ l, dataCommentAdd offset str l =
      l.filter (fun cmt => cmt.offset ≠ offset) ++ [⟨offset, chopNewline str⟩] := fun l => by
    rw [dataCommentAdd_eq hne, dataCommentDel_star hstar]
  have hnone : ⟨offset, chopNewline str⟩ ∉ comments.filter fun cmt => cmt.offset ≠ offset :=
    fun hmem => by simpa using List.of_mem_filter hmem
  constructor
  · intro h cmt hcmt hoff
    by_contra hother
    have hmem : cmt ∈ comments.filter (· ≠ ⟨offset, chopNewline str⟩) :=
      List.mem_filter.mpr ⟨hcmt, by simpa using hother⟩
    rw [← h.others, hadd, filter_concat_self] at hmem
    have hkept := List.of_mem_filter (List.mem_of_mem_filter hmem)
    exact (by simpa using hkept : cmt.offset ≠ offset) hoff
  · intro h
    refine ⟨?_, ?_, ?_⟩
    · rw [hadd, count_concat_self, List.count_eq_zero.mpr hnone]
    · rw [hadd, filter_concat_self, List.filter_filter]
      refine List.filter_congr fun cmt hcmt => ?_
      by_cases hoff : cmt.offset = offset
      · rw [h cmt hcmt hoff]
        simp
      · simp [hoff]
    · rw [hadd, hadd, List.filter_append, List.filter_filter,
        List.filter_cons_of_neg (by simp)]
      simp

/-- With a newline at the end it is not found again. -/
theorem not_addsOnce_newline (hstar : str.head? ≠ some 42) (hlast : str.getLast? = some 10) :
    ¬AddsOnce offset str comments := by
  have hne : str ≠ [] := by
    rintro rfl
    cases hlast
  have hother : (⟨offset, chopNewline str⟩ : CommentT) ≠ ⟨offset, str⟩ :=
    fun h => chopNewline_ne hlast (congrArg CommentT.comment h)
  intro h
  have hcount := h.again.count_eq ⟨offset, chopNewline str⟩
  rw [dataCommentAdd_eq hne, count_concat_self, dataCommentDel_eq_erase hstar,
    List.count_erase_of_ne hother, h.once] at hcount
  omega

/-- Any other text is found, if it is there. -/
theorem addsOnce_plain_iff (hne : str ≠ []) (hstar : str.head? ≠ some 42)
    (hlast : str.getLast? ≠ some 10) :
    AddsOnce offset str comments ↔ comments.count ⟨offset, str⟩ ≤ 1 := by
  have hchop : chopNewline str = str := if_neg hlast
  have hadd : ∀ l, dataCommentAdd offset str l = l.erase ⟨offset, str⟩ ++ [⟨offset, str⟩] :=
    fun l => by rw [dataCommentAdd_eq hne, dataCommentDel_eq_erase hstar, hchop]
  constructor
  · intro h
    have honce := h.once
    rw [hadd, hchop, count_concat_self, List.count_erase_self] at honce
    omega
  · intro h
    have hnone : (comments.erase ⟨offset, str⟩).count ⟨offset, str⟩ = 0 := by
      rw [List.count_erase_self]
      omega
    have hmem : ⟨offset, str⟩ ∉ comments.erase ⟨offset, str⟩ := List.count_eq_zero.mp hnone
    refine ⟨?_, ?_, ?_⟩
    · rw [hadd, hchop, count_concat_self, hnone]
    · have hout : ⟨offset, str⟩ ∉ comments.filter (· ≠ ⟨offset, str⟩) :=
        fun hmem => by simpa using List.of_mem_filter hmem
      rw [hadd, hchop, filter_concat_self, ← List.erase_filter, List.erase_of_not_mem hout]
    · rw [hadd, hadd, List.erase_append_right _ hmem]
      simp

/-- **When adding a comment twice is adding it once**: for a text with a `*` in
front, if all comments of the address are that one already; for any other text,
if no newline is at the end of it and the table does not have it twice. -/
theorem dataCommentAdd_once_iff (offset : ut64) (str : CText) (comments : List CommentT)
    (hne : str.1 ≠ []) :
    AddsOnce offset str.1 comments ↔
      if str.1.head? = some 42 then
        ∀ cmt ∈ comments, cmt.offset = offset → cmt = ⟨offset, chopNewline str.1⟩
      else str.1.getLast? ≠ some 10 ∧ comments.count ⟨offset, str.1⟩ ≤ 1 := by
  split_ifs with hstar
  · exact addsOnce_star_iff hne hstar
  · by_cases hlast : str.1.getLast? = some 10
    · exact iff_of_false (not_addsOnce_newline hstar hlast) fun h => h.1 hlast
    · rw [addsOnce_plain_iff hne hstar hlast]
      exact (and_iff_right hlast).symm

/-- `a`, where `a` and `b` are. -/
theorem dataCommentAdd_once_two : AddsOnce 16 [97] [⟨16, [97]⟩, ⟨16, [98]⟩] :=
  (dataCommentAdd_once_iff 16 ⟨[97], by decide⟩ [⟨16, [97]⟩, ⟨16, [98]⟩] (by decide)).mpr
    (by decide)

/-- `*a`, where `b` is. -/
theorem star_comment_takes_others : ¬AddsOnce 16 [42, 97] [⟨16, [98]⟩] := by
  intro h
  have hothers := h.others
  exact absurd hothers (by decide)

/-! ## The comments of an address -/

theorem strcat_bind (b : TextBuf) (s t : List u8) :
    ((b.strcat s).bind fun b => b.strcat t) = b.strcat (s ++ t) := by
  unfold TextBuf.strcat
  by_cases hs : b.text.length + s.length < b.room
  · rw [if_pos hs, Option.bind_some]
    simp [Nat.add_assoc]
  · rw [if_neg hs, if_neg (by rw [List.length_append]; omega)]
    rfl

/-- A line is one piece of text. -/
theorem commentLine_eq (margin : ℕ) (cmt : CommentT) (str : Option TextBuf) :
    commentLine margin cmt.comment str =
      (match str with
        | none => (⟨[], 1024⟩ : TextBuf)
        | some b => { b with room := margin + b.text.length + cmt.comment.length + 128 }).strcat
          (cmt.line margin) := by
  unfold commentLine CommentT.line
  dsimp only
  simp only [strcat_bind, List.append_assoc]

theorem length_line (cmt : CommentT) : (cmt.line margin).length = margin + cmt.comment.length + 3 := by
  simp only [CommentT.line, List.length_append, List.length_replicate, List.length_cons,
    List.length_nil]
  omega

theorem offset_of_mem {cmt : CommentT} (h : cmt ∈ commentsAt offset comments) :
    cmt.offset = offset := by
  simpa using (List.mem_filter.mp h).2

/-- Only the comments of the address are looked at. -/
theorem commentLoop_commentsAt (comments : List CommentT) (c lines : ℤ) (str : Option TextBuf) :
    commentLoop offset margin comments c lines str =
      commentLoop offset margin (commentsAt offset comments) c lines str := by
  induction comments generalizing c lines str with
  | nil => rfl
  | cons cmt comments ih =>
    unfold commentsAt at ih ⊢
    by_cases hoff : cmt.offset = offset
    · rw [List.filter_cons_of_pos (by simpa using hoff), commentLoop, commentLoop, if_pos hoff,
        if_pos hoff, ih]
      simp only [ih]
    · rw [List.filter_cons_of_neg (by simpa using hoff), commentLoop, if_neg hoff, ih]

/-- So many of them are skipped. -/
theorem commentLoop_skip (hhere : ∀ cmt ∈ here, cmt.offset = offset) (n : ℕ) (lines : ℤ)
    (str : Option TextBuf) :
    commentLoop offset margin here n lines str = commentLoop offset margin (here.drop n) 0 lines str := by
  induction n generalizing here with
  | zero => rfl
  | succ n ih =>
    cases here with
    | nil => rfl
    | cons cmt here =>
      obtain ⟨hoff, hhere⟩ := List.forall_mem_cons.mp hhere
      have hless : ((n + 1 : ℕ) : ℤ) - 1 = n := by omega
      rw [List.drop_succ_cons, ← ih hhere, commentLoop, if_pos hoff, if_pos (by omega), hless]

theorem cutLines_cons (lines : ℤ) (cmt : CommentT) (here : List CommentT) :
    cutLines lines (cmt :: here) =
      cmt :: if lines - 1 = 0 then [] else cutLines (lines - 1) here := by
  unfold cutLines
  by_cases hpos : 0 < lines
  · obtain ⟨k, rfl⟩ : ∃ k : ℕ, lines = k + 1 := ⟨(lines - 1).toNat, by omega⟩
    have hk : ((k : ℤ) + 1).toNat = k + 1 := by omega
    rw [if_pos hpos, hk, List.take_succ_cons, Int.add_sub_cancel, Int.toNat_natCast]
    split_ifs with hzero hlt
    · rw [Int.natCast_eq_zero.mp hzero, List.take_zero]
    · rfl
    · omega
  · rw [if_neg hpos, if_neg (by omega), if_neg (by omega)]

/-- Behind the first line there is always room. -/
theorem commentLoop_more (hhere : ∀ cmt ∈ here, cmt.offset = offset) (lines : ℤ) (b : TextBuf) :
    (commentLoop offset margin here 0 lines (some b)).map (·.map TextBuf.text) =
      some (some (b.text ++ (cutLines lines here).flatMap (CommentT.line margin))) := by
  induction here generalizing lines b with
  | nil =>
    have hnil : cutLines lines [] = [] := by
      unfold cutLines
      split_ifs
      · rw [List.take_nil]
      · rfl
    rw [hnil, List.flatMap_nil, List.append_nil]
    rfl
  | cons cmt here ih =>
    obtain ⟨hoff, hhere⟩ := List.forall_mem_cons.mp hhere
    have hroom : b.text.length + (cmt.line margin).length <
        margin + b.text.length + cmt.comment.length + 128 := by
      rw [length_line]
      omega
    rw [commentLoop, if_pos hoff, if_neg (by omega), commentLine_eq, TextBuf.strcat]
    dsimp only
    rw [if_pos hroom, Option.bind_some, cutLines_cons, List.flatMap_cons]
    by_cases hlast : lines - 1 = 0
    · rw [if_pos hlast, if_pos hlast, List.flatMap_nil, List.append_nil]
      rfl
    · rw [if_neg hlast, if_neg hlast, ih hhere, List.append_assoc]

/-- **The lines of some comments**: the first one has to fit in a new buffer. -/
theorem commentLoop_first {cmt : CommentT} (hhere : ∀ c ∈ cmt :: here, c.offset = offset)
    (lines : ℤ) :
    (commentLoop offset margin (cmt :: here) 0 lines none).map (·.map TextBuf.text) =
      if margin + cmt.comment.length ≤ 1020 then
        some (some ((cutLines lines (cmt :: here)).flatMap (CommentT.line margin)))
      else none := by
  obtain ⟨hoff, hhere⟩ := List.forall_mem_cons.mp hhere
  rw [commentLoop, if_pos hoff, if_neg (by omega), commentLine_eq, TextBuf.strcat]
  dsimp only
  rw [length_line]
  by_cases hroom : margin + cmt.comment.length ≤ 1020
  · rw [if_pos (by simp; omega), if_pos hroom, Option.bind_some, cutLines_cons, List.flatMap_cons,
      List.nil_append]
    by_cases hlast : lines - 1 = 0
    · rw [if_pos hlast, if_pos hlast, List.flatMap_nil, List.append_nil]
      rfl
    · rw [if_neg hlast, if_neg hlast, commentLoop_more hhere]
  · rw [if_neg (by simp; omega), if_neg hroom]
    rfl

/-- What is skipped, of a number of lines for the comments. -/
theorem commentSkip_eq (offset : ut64) (comments : List CommentT) (n : ℕ) :
    commentSkip offset comments n =
      ((if n ≠ 0 ∧ n < (commentsAt offset comments).length
        then (commentsAt offset comments).length - n else n : ℕ) : ℤ) := by
  have hcount : comments.countP (fun cmt => cmt.offset = offset) =
      (commentsAt offset comments).length := List.countP_eq_length_filter
  unfold commentSkip
  dsimp only
  rw [hcount]
  split_ifs <;> omega

theorem dataCommentGet_eq (comments : List CommentT) (cmtmargin : ℤ) (n : ℕ) (offset : ut64)
    (lines : ℤ) :
    dataCommentGet comments cmtmargin n offset lines =
      (commentLoop offset (commentMargin cmtmargin) ((commentsAt offset comments).drop
        (if n ≠ 0 ∧ n < (commentsAt offset comments).length
          then (commentsAt offset comments).length - n else n)) 0 lines none).map
            (·.map TextBuf.text) := by
  have hhere : ∀ cmt ∈ commentsAt offset comments, cmt.offset = offset :=
    fun cmt hcmt => offset_of_mem hcmt
  unfold dataCommentGet
  dsimp only
  rw [if_neg (by omega), commentLoop_commentsAt, commentSkip_eq, commentLoop_skip hhere]

theorem head?_cutLines (lines : ℤ) (here : List CommentT) :
    (cutLines lines here).head? = here.head? := by
  unfold cutLines
  split_ifs with hpos
  · rw [List.head?_take, if_neg (by omega)]
  · rfl

/-- **When the comments of the window are shown**: there is none, or all of them
are to be shown or there are more than the lines for them; and the first one that
is shown fits in its buffer. -/
theorem dataCommentGet_window_iff (comments : List CommentT) (cmtmargin : ℤ) (c : ℕ)
    (offset : ut64) (lines : ℤ) :
    ShowsWindow comments cmtmargin c offset lines ↔
      commentsAt offset comments = [] ∨ (c = 0 ∨ c < (commentsAt offset comments).length) ∧
        ∀ cmt ∈ (commentWindow c lines (commentsAt offset comments)).head?,
          commentMargin cmtmargin + cmt.comment.length ≤ 1020 := by
  have hhere : ∀ cmt ∈ commentsAt offset comments, cmt.offset = offset :=
    fun cmt hcmt => offset_of_mem hcmt
  rw [ShowsWindow, dataCommentGet_eq, commentWindow, head?_cutLines]
  generalize commentsAt offset comments = here at hhere
  by_cases hnil : here = []
  · rw [hnil, List.drop_nil, if_pos rfl]
    exact iff_of_true rfl (Or.inl rfl)
  rw [if_neg hnil, or_iff_right hnil]
  have hpos : 0 < here.length := List.length_pos_iff.mpr hnil
  by_cases hall : c = 0 ∨ c < here.length
  · have hdrop : here.drop (if c ≠ 0 ∧ c < here.length then here.length - c else c) =
        if c = 0 then here else here.drop (here.length - c) := by
      rcases hall with rfl | hlt
      · rw [if_neg (by omega), if_pos rfl, List.drop_zero]
      · by_cases hzero : c = 0
        · rw [if_neg (by omega), if_pos hzero, hzero, List.drop_zero]
        · rw [if_pos ⟨hzero, hlt⟩, if_neg hzero]
    rw [hdrop, and_iff_right hall]
    generalize hshown : (if c = 0 then here else here.drop (here.length - c)) = shown
    cases shown with
    | nil =>
      have hlen := congrArg List.length hshown
      split_ifs at hlen with hzero
      · exact absurd (List.length_eq_zero_iff.mp hlen) hnil
      · rw [List.length_drop, List.length_nil] at hlen
        omega
    | cons cmt rest =>
      have hmem : ∀ d ∈ cmt :: rest, d.offset = offset := by
        intro d hd
        rw [← hshown] at hd
        split_ifs at hd
        · exact hhere d hd
        · exact hhere d (List.mem_of_mem_drop hd)
      rw [commentLoop_first hmem]
      by_cases hroom : commentMargin cmtmargin + cmt.comment.length ≤ 1020
      · rw [if_pos hroom]
        exact iff_of_true rfl fun d hd => Option.some.inj hd ▸ hroom
      · rw [if_neg hroom]
        exact iff_of_false (fun h => by cases h) fun h => hroom (h cmt rfl)
  · -- all are skipped
    rw [if_neg fun h => hall (Or.inr h.2), List.drop_eq_nil_of_le (by omega)]
    exact iff_of_false (fun h => by cases h) fun h => hall h.1

/-- One comment, and a line for one. -/
theorem one_comment_skipped : ¬ShowsWindow [⟨16, [97]⟩] 0 1 16 0 := by
  unfold ShowsWindow
  decide

end Radare
