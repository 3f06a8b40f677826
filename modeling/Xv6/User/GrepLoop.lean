import Xv6.User.Grep

namespace Xv6.User

open List

def NL : UInt8 := '\n'.toUInt8

def strchr (c : UInt8) : List UInt8 → Option Nat
  | [] => none
  | x :: s => if x = 0 then none else if x = c then some 0 else (strchr c s).map (· + 1)

/-- The C string that starts at a place of the memory. -/
def cstring (s : List UInt8) : List UInt8 := s.takeWhile (· ≠ 0)

structure Scan where
  buf : List UInt8
  p : Nat
  out : List UInt8

/-- The inner loop of `grep`, from `p` on. -/
def scan (pattern : List UInt8) : Nat → List UInt8 → Nat → Scan
  | 0, buf, p => ⟨buf, p, []⟩
  | fuel + 1, buf, p =>
    match strchr NL (buf.drop p) with
    | none => ⟨buf, p, []⟩
    | some k =>
      let cut := buf.set (p + k) 0
      if grepMatch pattern (cstring (cut.drop p)) then
        let buf := cut.set (p + k) NL
        let r := scan pattern fuel buf (p + k + 1)
        { r with out := (buf.drop p).take (k + 1) ++ r.out }
      else scan pattern fuel cut (p + k + 1)

/-- How the read loop ended: with a failed read, or with a read of no bytes. -/
inductive Ending
  | error
  | zero (unread : List UInt8)
  deriving DecidableEq

structure Round where
  buf : List UInt8
  m : Nat
  out : List UInt8

/-- What `grep` does with the bytes of one read: it stores them after the `m` bytes in the buffer,
writes the lines that match, and moves the unfinished line to the front. -/
def grepRound (pattern buf : List UInt8) (m : Nat) (got : List UInt8) : Round :=
  let n := got.length
  let r := scan pattern (m + n + 1) ((buf.take m ++ got ++ buf.drop (m + n)).set (m + n) 0) 0
  let m := m + n - r.p
  ⟨(r.buf.drop r.p).take m ++ r.buf.drop m, m, r.out⟩

/-- The read loop of `grep`. The read number `i` fails, or gives at most `reads i` bytes, and at
least one where it can. -/
def grepLoop (pattern : List UInt8) (reads : Nat → Option Nat) (i : Nat) (buf : List UInt8) (m : Nat)
    (input : List UInt8) : List UInt8 × Ending :=
  match reads i with
  | none => ([], .error)
  | some size =>
    let n := min (min (max size 1) (1024 - m - 1)) input.length
    if n = 0 then ([], .zero input)
    else
      let r := grepRound pattern buf m (input.take n)
      let rest := grepLoop pattern reads (i + 1) r.buf r.m (input.drop n)
      (r.out ++ rest.1, rest.2)
termination_by input.length
decreasing_by
  rw [length_drop]
  omega

/-- `grep` of one file: what it writes, and how it ended. -/
def grep (pattern : List UInt8) (reads : Nat → Option Nat) (buf input : List UInt8) :
    List UInt8 × Ending :=
  grepLoop pattern reads 0 buf 0 input

/-- The lines of the input that end in a newline. -/
def lines (input : List UInt8) : List (List UInt8) := (input.splitOn NL).dropLast

/-- The matching lines, each with its newline. -/
def matching (pattern : List UInt8) (ls : List (List UInt8)) : List UInt8 :=
  (ls.filter (grepMatch pattern)).flatMap (· ++ [NL])

variable {junk s : List UInt8}

theorem strchr_none {c : UInt8} (hc : c ∉ s) : strchr c (s ++ 0 :: junk) = none := by
  induction s with
  | nil => simp [strchr]
  | cons x s ih =>
    simp only [mem_cons, not_or] at hc
    simp [strchr, ih hc.2, Ne.symm hc.1]

theorem strchr_some {c : UInt8} (hc : c ∉ s) (h0 : 0 ∉ s) (hne : c ≠ 0) :
    strchr c (s ++ c :: junk) = some s.length := by
  induction s with
  | nil => simp [strchr, hne]
  | cons x s ih =>
    simp only [mem_cons, not_or] at hc
    simp only [mem_cons, not_or] at h0
    simp [strchr, ih hc.2 h0.2, Ne.symm hc.1, Ne.symm h0.1]

theorem cstring_append (h0 : 0 ∉ s) : cstring (s ++ 0 :: junk) = s := by
  induction s with
  | nil => rfl
  | cons x s ih =>
    simp only [mem_cons, not_or] at h0
    have htail := ih h0.2
    unfold cstring at *
    simpa [Ne.symm h0.1] using htail

/-- What `scan` does with the bytes `l` between `p` and the NUL: the lines `done` are complete, and
`cur` is left. -/
structure Scanned (pattern : List UInt8) (size p : Nat) (l junk : List UInt8) (r : Scan)
    (done : List (List UInt8)) (cur : List UInt8) : Prop where
  out : r.out = matching pattern done
  length : r.buf.length = size
  moved : r.p + cur.length = p + l.length
  drop : r.buf.drop r.p = cur ++ 0 :: junk
  noNewline : NL ∉ cur
  noNul : 0 ∉ cur
  short : ∀ d ∈ done, d.length < l.length
  split : ∀ rest, (l ++ rest).splitOn NL = done ++ (cur ++ rest).splitOn NL

variable {p : Nat}

theorem set_drop {buf a c : List UInt8} {x : UInt8} (h : buf.drop p = a ++ x :: c)
    (y : UInt8) : (buf.set (p + a.length) y).drop p = a ++ y :: c := by
  simp [drop_set, h]

theorem Scanned.line {pattern a b cur : List UInt8} {size : Nat} {r : Scan}
    {done : List (List UInt8)} (h : Scanned pattern size (p + a.length + 1) b junk r done cur)
    (ha : NL ∉ a) : Scanned pattern size p (a ++ NL :: b) junk
      { r with out := (if grepMatch pattern a then a ++ [NL] else []) ++ r.out } (a :: done) cur where
  out := by
    rw [h.out]
    unfold matching
    split_ifs with hmatch <;> simp [hmatch]
  length := h.length
  moved := by
    have := h.moved
    simp only [length_append, length_cons]
    omega
  drop := h.drop
  noNewline := h.noNewline
  noNul := h.noNul
  short := by
    intro d hd
    rw [length_append, length_cons]
    rcases mem_cons.1 hd with rfl | hd
    · omega
    · have := h.short d hd
      omega
  split rest := by
    rw [append_assoc, cons_append, splitOn_append_cons_self_of_not_mem ha, h.split]
    rfl

theorem scan_spec (pattern : List UInt8) {fuel : Nat} {buf : List UInt8}
    {l : List UInt8} (hl : buf.drop p = l ++ 0 :: junk) (h0 : 0 ∉ l) (hfuel : l.length < fuel) :
    ∃ done cur, Scanned pattern buf.length p l junk (scan pattern fuel buf p) done cur := by
  induction fuel generalizing buf p l with
  | zero => omega
  | succ fuel ih =>
    unfold scan
    by_cases hnl : NL ∈ l
    · obtain ⟨a, b, rfl, ha⟩ := eq_append_cons_of_mem hnl
      simp only [mem_append, mem_cons, not_or] at h0
      simp only [length_append, length_cons] at hfuel
      rw [append_assoc, cons_append] at hl
      have hcut := set_drop hl 0
      have hback := set_drop hcut NL
      have hnext {buf : List UInt8} {x : UInt8} (h : buf.drop p = a ++ x :: (b ++ 0 :: junk)) :
          buf.drop (p + a.length + 1) = b ++ 0 :: junk := by
        rw [Nat.add_assoc, ← drop_drop, h]
        simp
      simp only [hl, strchr_some ha h0.1 (Ne.symm h0.2.1), hcut, cstring_append h0.1, hback]
      split_ifs with hmatch
      · obtain ⟨done, cur, h⟩ := ih (hnext hback) h0.2.2 (by omega)
        refine ⟨a :: done, cur, ?_⟩
        simpa [hmatch, take_length_add_append] using h.line ha
      · obtain ⟨done, cur, h⟩ := ih (hnext hcut) h0.2.2 (by omega)
        refine ⟨a :: done, cur, ?_⟩
        simpa [hmatch] using h.line ha
    · rw [hl, strchr_none hnl]
      exact ⟨[], l, rfl, rfl, rfl, hl, hnl, h0, by simp, fun _ => rfl⟩

theorem grepRound_spec (pattern : List UInt8) {buf got : List UInt8} {m : Nat}
    (hbuf : buf.length = 1024) (hm : m + got.length ≤ 1023) (h0 : 0 ∉ buf.take m ++ got) :
    ∃ done cur, (grepRound pattern buf m got).out = matching pattern done ∧
      (grepRound pattern buf m got).buf.length = 1024 ∧
      (grepRound pattern buf m got).m = cur.length ∧
      (grepRound pattern buf m got).buf.take cur.length = cur ∧
      cur.length ≤ 1023 ∧ NL ∉ cur ∧ 0 ∉ cur ∧ (∀ d ∈ done, d.length ≤ 1022) ∧
      ∀ rest, (buf.take m ++ got ++ rest).splitOn NL = done ++ (cur ++ rest).splitOn NL := by
  have hl : (buf.take m ++ got).length = m + got.length := by
    rw [length_append, length_take]
    omega
  obtain ⟨x, junk, hjunk⟩ : ∃ x junk, buf.drop (m + got.length) = x :: junk :=
    exists_cons_of_length_pos (by rw [length_drop]; omega)
  have hsize : ((buf.take m ++ got ++ buf.drop (m + got.length)).set (m + got.length) 0).length =
      1024 := by
    rw [length_set, length_append, hl, length_drop]
    omega
  have hstored : (buf.take m ++ got ++ buf.drop (m + got.length)).drop 0 =
      buf.take m ++ got ++ x :: junk := by
    rw [hjunk]
    rfl
  have hstored := set_drop hstored 0
  rw [hl, Nat.zero_add] at hstored
  obtain ⟨done, cur, h⟩ := scan_spec pattern hstored h0 (Nat.lt_succ_self _)
  rw [hsize, hl] at h
  unfold grepRound
  simp only
  generalize scan pattern _ _ _ = r at *
  have hmoved := h.moved
  rw [hl] at hmoved
  have hcur : m + got.length - r.p = cur.length := by omega
  rw [hcur, h.drop, take_left]
  refine ⟨done, cur, h.out, ?_, rfl, take_left, by omega, h.noNewline, h.noNul, ?_, h.split⟩
  · rw [length_append, length_drop, h.length]
    omega
  · intro d hd
    have := h.short d hd
    omega

/-- How the read loop ends on the bytes `s`, those in the buffer included: the lines `done` are
complete, `cur` is in the buffer and fills it where bytes are left unread. -/
structure Grepped (pattern s : List UInt8) (r : List UInt8 × Ending) (done : List (List UInt8))
    (cur unread : List UInt8) : Prop where
  result : r = (matching pattern done, .zero unread)
  noNewline : NL ∉ cur
  fits : cur.length ≤ 1023
  full : unread = [] ∨ cur.length = 1023
  short : ∀ d ∈ done, d.length ≤ 1022
  split : s.splitOn NL = done ++ (cur ++ unread).splitOn NL

theorem grepLoop_spec (pattern : List UInt8) (reads : Nat → Option Nat) {i m : Nat}
    {buf input : List UInt8} (hbuf : buf.length = 1024) (hm : m ≤ 1023) (hnl : NL ∉ buf.take m)
    (h0 : 0 ∉ buf.take m ++ input) :
    ((grepLoop pattern reads i buf m input).2 = .error ∧ ∃ i, reads i = none) ∨
    ∃ done cur unread, Grepped pattern (buf.take m ++ input) (grepLoop pattern reads i buf m input)
      done cur unread := by
  induction hlen : input.length using Nat.strong_induction_on generalizing i m buf input with
  | _ len ih =>
    unfold grepLoop
    cases hread : reads i with
    | none => exact .inl ⟨rfl, i, hread⟩
    | some size =>
      simp only
      generalize hn : min (min (max size 1) (1024 - m - 1)) input.length = n
      by_cases hzero : n = 0
      · have htake : (buf.take m).length = m := by
          rw [length_take]
          omega
        rw [if_pos hzero]
        refine .inr ⟨[], buf.take m, input, rfl, hnl, by omega, ?_, by simp, rfl⟩
        rw [← length_eq_zero_iff]
        omega
      rw [if_neg hzero]
      have hgot : (input.take n).length = n := by
        rw [length_take]
        omega
      rw [← take_append_drop n input, ← append_assoc, mem_append, not_or] at h0
      obtain ⟨done, cur, hout, hsize, hcur, htake, hfits, hnl', h0', hshort, hsplit⟩ :=
        grepRound_spec pattern hbuf (by omega) h0.1
      generalize grepRound pattern buf m (input.take n) = r at *
      rw [← hcur] at htake hfits
      rcases @ih (input.drop n).length (by rw [length_drop]; omega) (i + 1) r.m r.buf
        (input.drop n) hsize hfits (htake ▸ hnl') (by simp [htake, h0', h0.2]) rfl with
        herror | ⟨done', cur', unread, h⟩
      · exact .inl herror
      refine .inr ⟨done ++ done', cur', unread, ?_, h.noNewline, h.fits, h.full, ?_, ?_⟩
      · rw [h.result, hout]
        simp [matching]
      · intro d hd
        exact (mem_append.1 hd).elim (hshort d) (h.short d)
      · rw [← take_append_drop n input, ← append_assoc, hsplit, ← htake, h.split, append_assoc]

variable {pattern s cur unread buf input : List UInt8} {r : List UInt8 × Ending}
  {done : List (List UInt8)}

theorem Grepped.lines_eq (h : Grepped pattern s r done cur unread) :
    lines s = done ++ lines (cur ++ unread) := by
  unfold lines
  rw [h.split, dropLast_append_of_ne_nil (splitOn_ne_nil _ _)]

/-- A newline after a full buffer would end a line that is too long. -/
theorem Grepped.split_eq (h : Grepped pattern s r done cur unread)
    (hlines : ∀ l ∈ lines s, l.length ≤ 1022) : s.splitOn NL = done ++ [cur ++ unread] := by
  have hnl : NL ∉ unread := by
    intro hnl
    obtain ⟨a, b, rfl, ha⟩ := eq_append_cons_of_mem hnl
    have hline : cur ++ a ∈ lines s := by
      rw [h.lines_eq]
      unfold lines
      rw [← append_assoc, splitOn_append_cons_self_of_not_mem
        (by simp [h.noNewline, ha]), dropLast_cons_of_ne_nil (splitOn_ne_nil _ _)]
      exact mem_append_right _ mem_cons_self
    have hshort := hlines _ hline
    have hfull := h.full.resolve_left (by simp)
    rw [length_append] at hshort
    omega
  rw [h.split, splitOn_eq_singleton (by simp [h.noNewline, hnl])]

theorem lines_of_split {last : List UInt8} (h : s.splitOn NL = done ++ [last]) :
    lines s = done := by
  unfold lines
  rw [h, dropLast_concat]

theorem grep_spec (pattern : List UInt8) (reads : Nat → Option Nat) (hbuf : buf.length = 1024)
    (h0 : 0 ∉ input) : ((grep pattern reads buf input).2 = .error ∧ ∃ i, reads i = none) ∨
    ∃ done cur unread, Grepped pattern input (grep pattern reads buf input) done cur unread :=
  grepLoop_spec pattern reads (m := 0) hbuf (by omega) (by simp) h0

/-- The output of `grep` is the same for every way the input arrives. -/
theorem grep_prints_matching_lines (pattern : List UInt8) (sizes : Nat → Nat)
    (hbuf : buf.length = 1024) (h0 : 0 ∉ input) (hlines : ∀ l ∈ lines input, l.length ≤ 1022) :
    (grep pattern (fun i => some (sizes i)) buf input).1 = matching pattern (lines input) := by
  rcases grep_spec pattern (fun i => some (sizes i)) hbuf h0 with ⟨-, i, hi⟩ | ⟨done, cur, unread, h⟩
  · cases hi
  · rw [h.result, lines_of_split (h.split_eq hlines)]

/-- Two lines that arrive byte by byte. -/
theorem grep_prints_matching_lines_demo :
    (grep [97] (fun _ => some 1) (List.replicate 1024 0) [98, 10, 99, 97, 10]).1 = [99, 97, 10] := by
  rw [grep_prints_matching_lines [97] (fun _ => 1) length_replicate (by decide)
    (by decide +kernel)]
  decide +kernel

/-- The inputs whose lines fit in the buffer, with the newline or the end of the input after them. -/
def Fits (input : List UInt8) : Prop :=
  (∀ l ∈ lines input, l.length ≤ 1022) ∧ ((input.splitOn NL).getLastD []).length ≤ 1023

/-- `grep` reads its input to the end, unless a read fails, exactly if the lines fit. -/
theorem grep_reads_to_end_iff (pattern : List UInt8) (hbuf : buf.length = 1024) (h0 : 0 ∉ input) :
    (∀ reads, (grep pattern reads buf input).2 = .error ∨
      grep pattern reads buf input = (matching pattern (lines input), .zero [])) ↔ Fits input := by
  constructor
  · intro hall
    rcases grep_spec pattern (fun _ => some 1) hbuf h0 with ⟨-, i, hi⟩ | ⟨done, cur, unread, h⟩
    · cases hi
    have hend := hall fun _ => some 1
    rw [h.result] at hend
    simp only [reduceCtorEq, false_or, Prod.mk.injEq, Ending.zero.injEq] at hend
    have hsplit := h.split
    rw [hend.2, append_nil, splitOn_eq_singleton h.noNewline] at hsplit
    refine ⟨lines_of_split hsplit ▸ h.short, ?_⟩
    rw [hsplit]
    simpa using h.fits
  · rintro ⟨hlines, hlast⟩ reads
    rcases grep_spec pattern reads hbuf h0 with ⟨herror, -⟩ | ⟨done, cur, unread, h⟩
    · exact .inl herror
    have hsplit := h.split_eq hlines
    rw [hsplit] at hlast
    have hunread : unread = [] := by
      refine h.full.elim id fun hfull => length_eq_zero_iff.1 ?_
      simp only [getLastD_concat, length_append] at hlast
      omega
    rw [lines_of_split hsplit, h.result, hunread]
    exact .inr rfl

/-- A line that fills the buffer ends the loop, and the line after it is lost. -/
theorem grep_stops_at_long_line :
    grep [97] (fun _ => some 1024) (List.replicate 1024 0) (List.replicate 1023 120 ++ [10, 97, 10]) =
      ([], .zero [10, 97, 10]) ∧
    matching [97] (lines (List.replicate 1023 120 ++ [10, 97, 10])) = [97, 10] := by
  decide +kernel

theorem grep_reads_to_end_demo :
    grep [97] (fun _ => some 1) (List.replicate 1024 0) [98, 10, 99, 97, 10] =
      (matching [97] (lines [98, 10, 99, 97, 10]), .zero []) := by
  have hfits : Fits [98, 10, 99, 97, 10] := ⟨by decide +kernel, by decide +kernel⟩
  refine ((grep_reads_to_end_iff [97] length_replicate (by decide)).2 hfits _).resolve_left ?_
  decide +kernel

end Xv6.User
