import Mathlib.Data.List.ReduceOption
import Xv6.User.GrepLoop

namespace Xv6.User

open List

def MAXARG : Nat := 32

/-- The first loop of `main` in `xargs.c`: the arguments without the pairs "-n", "1". -/
def baseArgs : List (List UInt8) → List (List UInt8)
  | [] => []
  | [arg] => [arg]
  | arg :: next :: rest =>
    if arg = [45, 110] ∧ next = [49] then baseArgs rest else arg :: baseArgs (next :: rest)

/-- The bytes between `arg_s` and `arg_e`, and `has_arg`. -/
structure Xargs where
  buf : List UInt8
  hasArg : Bool

/-- `'\n'` and `' '` -/
def isSep (ch : UInt8) : Bool := ch = 10 || ch = 32

/-- One byte of the input, and the argument that the command is run with. `BUF_SIZE` is 512. -/
def Xargs.step (s : Xargs) (ch : UInt8) : Xargs × Option (List UInt8) :=
  if 511 ≤ s.buf.length then (⟨[], s.hasArg⟩, none)
  else if isSep ch then
    if s.hasArg then (⟨[], false⟩, some s.buf) else (⟨[], s.hasArg⟩, none)
  else (⟨s.buf ++ [ch], true⟩, none)

/-- The rest of the input: the argument, if any, that the command is run with at each byte and after
the last one. -/
def Xargs.run (s : Xargs) : List UInt8 → List (Option (List UInt8))
  | [] => [if s.hasArg then some s.buf else none]
  | ch :: input => (s.step ch).2 :: (s.step ch).1.run input

/-- `main` of `xargs.c`: the vectors passed to `exec` and the entries of `x_argv` that are used, or
nothing if there is no command. -/
def xargs (argv : List (List UInt8)) (input : List UInt8) :
    Option (List (List (List UInt8)) × List Nat) :=
  let base := baseArgs argv.tail
  let args := ((Xargs.mk [] false).run input).reduceOption
  if base = [] then none
  else some (args.map fun arg => base ++ [cstring (arg ++ [0])],
    range base.length ++ [base.length] ++ args.flatMap fun _ => [base.length, base.length + 1])

/-- The maximal runs of bytes that are no separators. -/
def tokens (input : List UInt8) : List (List UInt8) := (input.splitOnP isSep).filter (· ≠ [])

/-- The token, if any, that ends at each byte of the input and at its end; `cur` is what was read
of the first one. -/
def tokensAt (cur : List UInt8) : List UInt8 → List (Option (List UInt8))
  | [] => [if cur = [] then none else some cur]
  | ch :: input =>
    if isSep ch then (if cur = [] then none else some cur) :: tokensAt [] input
    else none :: tokensAt (cur ++ [ch]) input

/-- At one place nothing or the token that ends there is passed on, and a short one always is. -/
def Passed (arg token : Option (List UInt8)) : Prop :=
  (arg = none ∨ arg = token) ∧ ∀ t, token = some t → t.length ≤ 510 → arg = some t

/-- Which tokens of more than 510 bytes do no harm: those of 511, 1023, ... bytes before a single
separator and another token, and one of 511 bytes at the end. -/
def Harmless (cur : List UInt8) : List UInt8 → Prop
  | [] => cur.length ≤ 511
  | ch :: input =>
    if isSep ch then
      (cur.length ≤ 510 ∨ cur.length % 512 = 511 ∧ ∃ c ∈ input.head?, isSep c = false) ∧
        Harmless [] input
    else Harmless (cur ++ [ch]) input

/-- The scan after `cur` was read of a token: the buffer is emptied by every 512th byte. -/
def Xargs.Holds (s : Xargs) (cur : List UInt8) : Prop :=
  s.buf = cur.drop (512 * (cur.length / 512)) ∧ (s.hasArg = true ↔ cur ≠ [])

variable {s : Xargs} {cur input : List UInt8}

theorem Xargs.Holds.nil : (Xargs.mk [] false).Holds [] := ⟨rfl, by simp⟩

section

variable (h : s.Holds cur)
include h

theorem Xargs.Holds.length : s.buf.length = cur.length % 512 := by
  rw [h.1, length_drop]
  omega

theorem Xargs.Holds.buf_eq_iff : s.buf = cur ↔ cur.length < 512 := by
  constructor
  · intro heq
    have := h.length
    rw [heq] at this
    omega
  · intro hlt
    rw [h.1, Nat.div_eq_of_lt hlt]
    rfl

/-- What has been read of the token is passed on whole if it fits into the buffer. -/
theorem Xargs.Holds.passed_iff :
    Passed (if s.hasArg then some s.buf else none) (if cur = [] then none else some cur) ↔
      cur.length < 512 := by
  by_cases hcur : cur = []
  · have hno : s.hasArg = false := by simpa [hcur] using h.2
    simp [hno, hcur, Passed]
  · rw [if_pos (h.2.mpr hcur), if_neg hcur, ← h.buf_eq_iff]
    constructor
    · intro hp
      simpa using hp.1
    · intro hbuf
      exact ⟨.inr (by rw [hbuf]), fun t ht _ => by rw [hbuf, ht]⟩

theorem Xargs.Holds.step {ch : UInt8} (hch : isSep ch = false) :
    (s.step ch).2 = none ∧ (s.step ch).1.Holds (cur ++ [ch]) := by
  have hlen := h.length
  unfold Xargs.step Holds
  rw [hch, length_append, length_singleton]
  by_cases hfull : 511 ≤ s.buf.length
  · rw [if_pos hfull]
    refine ⟨rfl, ?_, ?_⟩
    · rw [drop_eq_nil_of_le]
      simp
      omega
    · have hcur : cur ≠ [] := by
        rintro rfl
        rw [hlen] at hfull
        contradiction
      simpa using h.2.mpr hcur
  · rw [if_neg hfull]
    refine ⟨rfl, ?_, by simp⟩
    rw [show (cur.length + 1) / 512 = cur.length / 512 by omega, drop_append_of_le_length (by omega)]
    simp [h.1]

omit h in
/-- After a token that was skipped with its separator another token has to follow at once: the empty
buffer counts as an argument. -/
theorem skipped_iff (h : Forall₂ Passed ((Xargs.mk [] false).run input) (tokensAt [] input) ↔
      Harmless [] input) :
    Forall₂ Passed ((Xargs.mk [] true).run input) (tokensAt [] input) ↔
      (∃ c ∈ input.head?, isSep c = false) ∧ Harmless [] input := by
  cases input with
  | nil => simp [Xargs.run, tokensAt, Passed]
  | cons c input =>
    cases hc : isSep c with
    | false =>
      rw [← h]
      simp [Xargs.run, Xargs.step, hc]
    | true => simp [Xargs.run, Xargs.step, tokensAt, hc, Passed]

theorem passed_iff_harmless :
    Forall₂ Passed (s.run input) (tokensAt cur input) ↔ Harmless cur input := by
  induction input generalizing s cur with
  | nil =>
    rw [Xargs.run, tokensAt, forall₂_cons, h.passed_iff, Harmless]
    simp
    omega
  | cons ch input ih =>
    rw [Xargs.run, tokensAt, Harmless]
    cases hch : isSep ch with
    | false =>
      obtain ⟨hnone, hholds⟩ := h.step hch
      rw [if_neg Bool.noConfusion, if_neg Bool.noConfusion, forall₂_cons, hnone, ih hholds]
      simp [Passed]
    | true =>
      have hlen := h.length
      have hstart := ih .nil
      rw [if_pos rfl, if_pos rfl, forall₂_cons]
      by_cases hfull : 511 ≤ s.buf.length
      · have hcur : cur ≠ [] := by
          rintro rfl
          rw [hlen] at hfull
          contradiction
        have hmod : cur.length % 512 = 511 := by omega
        have hlong : 510 < cur.length := by omega
        rw [Xargs.step, if_pos hfull, h.2.mpr hcur, skipped_iff hstart]
        simp [Passed, hcur, hmod, hlong]
      · have hmod : ¬ cur.length % 512 = 511 := by omega
        have hstep : s.step ch = (⟨[], false⟩, if s.hasArg then some s.buf else none) := by
          rw [Xargs.step, if_neg hfull, if_pos hch]
          cases s.hasArg <;> rfl
        rw [hstep, h.passed_iff, hstart, show cur.length < 512 ↔ cur.length ≤ 510 by omega]
        simp [hmod]

end

theorem reduceOption_tokensAt : (tokensAt cur input).reduceOption =
    ((input.splitOnP isSep).modifyHead (cur ++ ·)).filter (· ≠ []) := by
  induction input generalizing cur with
  | nil => by_cases hcur : cur = [] <;> simp [tokensAt, hcur]
  | cons ch input ih =>
    rw [tokensAt, splitOnP_cons_eq_if_modifyHead]
    cases hch : isSep ch with
    | false =>
      have hnext := @ih (cur ++ [ch])
      simpa [Function.comp_def] using hnext
    | true =>
      have hnext : (tokensAt [] input).reduceOption = (input.splitOnP isSep).filter (· ≠ []) := by
        rw [ih]
        cases input.splitOnP isSep <;> rfl
      by_cases hcur : cur = [] <;> simpa [hcur] using hnext

theorem harmless_of_short (h : ∀ t, some t ∈ tokensAt cur input → t.length ≤ 510) :
    Harmless cur input := by
  induction input generalizing cur with
  | nil =>
    by_cases hcur : cur = []
    · simp [hcur, Harmless]
    · exact (h cur (by simp [tokensAt, hcur])).trans (by decide)
  | cons ch input ih =>
    rw [tokensAt] at h
    rw [Harmless]
    split_ifs at h ⊢ with hch hcur
    · exact ⟨by simp [hcur], ih fun t ht => h t (mem_cons_of_mem _ ht)⟩
    · exact ⟨.inl (h cur mem_cons_self), ih fun t ht => h t (mem_cons_of_mem _ ht)⟩
    · exact ih fun t ht => h t (mem_cons_of_mem _ ht)

theorem eq_of_passed {args toks : List (Option (List UInt8))} (h : Forall₂ Passed args toks)
    (hshort : ∀ t, some t ∈ toks → t.length ≤ 510) : args = toks := by
  induction h with
  | nil => rfl
  | @cons arg tok args toks hp _ ih =>
    rw [ih fun t ht => hshort t (mem_cons_of_mem _ ht)]
    congr 1
    cases tok with
    | none => simpa using hp.1
    | some t => exact hp.2 t rfl (hshort t mem_cons_self)

/-- The bytes of an argument come from the input. -/
theorem zero_notMem_run (hbuf : 0 ∉ s.buf) (h : 0 ∉ input) : ∀ t, some t ∈ s.run input → 0 ∉ t := by
  induction input generalizing s with
  | nil =>
    intro t ht
    simp only [Xargs.run, mem_singleton] at ht
    split_ifs at ht
    cases ht
    exact hbuf
  | cons ch input ih =>
    rw [mem_cons, not_or] at h
    intro t ht
    rw [Xargs.run, mem_cons] at ht
    have hstep : 0 ∉ (s.step ch).1.buf ∧ ∀ t, some t = (s.step ch).2 → 0 ∉ t := by
      unfold Xargs.step
      split_ifs <;> simp [hbuf, h.1]
    exact ht.elim (hstep.2 t) (ih hstep.1 h.2 t)

theorem length_baseArgs (argv : List (List UInt8)) : (baseArgs argv).length ≤ argv.length := by
  induction argv using baseArgs.induct with
  | case1 | case2 => rfl
  | case3 arg next rest hpair ih =>
    rw [baseArgs, if_pos hpair]
    simp
    omega
  | case4 arg next rest hpair ih =>
    rw [baseArgs, if_neg hpair]
    exact Nat.succ_le_succ ih

theorem xargs_eq {argv : List (List UInt8)} (hbase : baseArgs argv.tail ≠ []) (hnul : 0 ∉ input) :
    (xargs argv input).map Prod.fst = some (((Xargs.mk [] false).run input).reduceOption.map
      fun t => baseArgs argv.tail ++ [t]) := by
  rw [xargs, if_neg hbase]
  refine congrArg some (map_congr_left fun t ht => ?_)
  have hzero := zero_notMem_run not_mem_nil hnul t (reduceOption_mem_iff.mp ht)
  rw [cstring_append hzero]

/-- The command is run once with each token, and `x_argv` is not left. -/
theorem xargs_runs_each_token {argv : List (List UInt8)} (hargc : argv.length ≤ MAXARG - 1)
    (hbase : baseArgs argv.tail ≠ []) (hnul : 0 ∉ input)
    (hshort : ∀ t ∈ tokens input, t.length ≤ 510) : ∃ used,
      xargs argv input = some ((tokens input).map fun t => baseArgs argv.tail ++ [t], used) ∧
        ∀ i ∈ used, i < MAXARG := by
  have htokens : (tokensAt [] input).reduceOption = tokens input := by
    rw [reduceOption_tokensAt, tokens]
    cases input.splitOnP isSep <;> rfl
  have hshort' : ∀ t, some t ∈ tokensAt [] input → t.length ≤ 510 :=
    fun t ht => hshort t (htokens ▸ reduceOption_mem_iff.mpr ht)
  have hrun := eq_of_passed ((passed_iff_harmless .nil).mpr (harmless_of_short hshort')) hshort'
  obtain ⟨⟨execs, used⟩, hx, hexecs⟩ := Option.map_eq_some_iff.mp (xargs_eq hbase hnul)
  rw [hrun, htokens] at hexecs
  refine ⟨used, by rw [hx, ← hexecs], fun i hi => ?_⟩
  have hlen := length_baseArgs argv.tail
  rw [xargs, if_neg hbase] at hx
  cases hx
  rw [length_tail] at hlen
  simp only [MAXARG] at *
  simp at hi
  omega

theorem xargs_runs_each_token_demo : ∃ used, xargs [[120], [45, 110], [49], [99]] [97, 32, 10, 98, 97] =
      some ([[[99], [97]], [[99], [98, 97]]], used) ∧ ∀ i ∈ used, i < MAXARG :=
  xargs_runs_each_token (by decide) (by decide) (by decide) (by decide)

/-- The command is run with nothing but whole tokens, and with every token of at most 510 bytes,
exactly if the longer ones do no harm. -/
theorem xargs_runs_tokens_only {argv : List (List UInt8)} (hbase : baseArgs argv.tail ≠ [])
    (hnul : 0 ∉ input) :
    (xargs argv input).map Prod.fst = some (((Xargs.mk [] false).run input).reduceOption.map
      fun t => baseArgs argv.tail ++ [t]) ∧
    (Forall₂ Passed ((Xargs.mk [] false).run input) (tokensAt [] input) ↔ Harmless [] input) :=
  ⟨xargs_eq hbase hnul, passed_iff_harmless .nil⟩

theorem xargs_runs_tokens_only_demo :
    Forall₂ Passed ((Xargs.mk [] false).run [97, 32]) (tokensAt [] [97, 32]) := by
  have hbase : baseArgs ([[120], [99]] : List (List UInt8)).tail ≠ [] := by decide
  exact (xargs_runs_tokens_only hbase (by decide)).2.mpr (by simp [Harmless, isSep])

/-- Of 513 bytes the last one is taken for a token. -/
theorem xargs_runs_part_of_token :
    xargs [[120], [99]] (replicate 513 97 ++ [10]) = some ([[[99], [97]]], [0, 1, 1, 2]) ∧
      tokens (replicate 513 97 ++ [10]) = [replicate 513 97] := by
  decide +kernel

end Xv6.User
