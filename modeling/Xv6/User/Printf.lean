import Mathlib

namespace Xv6

open List Nat

/-- The number directives by their last character. -/
inductive Conv
  | d
  | u
  | x
  deriving DecidableEq

def Conv.base : Conv → Nat
  | d => 10
  | u => 10
  | x => 16

def Conv.sign : Conv → Bool
  | d => true
  | u => false
  | x => false

/-- What a formatter prints. The argument of a `long` number is fetched as a `uint64`, that of
another one as an `int`. -/
inductive Piece
  | char (c : UInt8)
  | int (long : Bool) (conv : Conv) (a : BitVec 64)
  | ptr (a : BitVec 64)
  | str (a : BitVec 64)
  deriving DecidableEq

/-- The tests on the characters after a '%', the same in both formatters: what is printed if `a` is
the next argument, how many arguments are taken, and by how much `i` is moved on. -/
def directive (c0 c1 c2 : UInt8) (a : BitVec 64) : List Piece × Nat × Nat :=
  let l := 'l'.toUInt8
  if c0 = 'd'.toUInt8 then ([.int false .d a], 1, 0)
  else if c0 = l ∧ c1 = 'd'.toUInt8 then ([.int true .d a], 1, 1)
  else if c0 = l ∧ c1 = l ∧ c2 = 'd'.toUInt8 then ([.int true .d a], 1, 2)
  else if c0 = 'u'.toUInt8 then ([.int false .u a], 1, 0)
  else if c0 = l ∧ c1 = 'u'.toUInt8 then ([.int true .u a], 1, 1)
  else if c0 = l ∧ c1 = l ∧ c2 = 'u'.toUInt8 then ([.int true .u a], 1, 2)
  else if c0 = 'x'.toUInt8 then ([.int false .x a], 1, 0)
  else if c0 = l ∧ c1 = 'x'.toUInt8 then ([.int true .x a], 1, 1)
  else if c0 = l ∧ c1 = l ∧ c2 = 'x'.toUInt8 then ([.int true .x a], 1, 2)
  else if c0 = 'p'.toUInt8 then ([.ptr a], 1, 0)
  else if c0 = 's'.toUInt8 then ([.str a], 1, 0)
  else if c0 = '%'.toUInt8 then ([.char '%'.toUInt8], 0, 0)
  else ([.char '%'.toUInt8, .char c0], 0, 0)

/-- `directive` on the characters of the format, which ends with a NUL. -/
def directiveAt (c0 : UInt8) (fmt : List UInt8) (a : BitVec 64) : List Piece × Nat × Nat :=
  let c1 := fmt.headD 0
  directive c0 c1 (if c1 = 0 then 0 else fmt.tail.headD 0) a

/-- The loop of the kernel's `printf`; `ap` are the argument slots that are left. -/
def Kernel.printf : List UInt8 → (Nat → BitVec 64) → List Piece
  | [], _ => []
  | [cx], _ => if cx ≠ '%'.toUInt8 then [.char cx] else []
  | cx :: c0 :: fmt, ap =>
    if cx ≠ '%'.toUInt8 then .char cx :: printf (c0 :: fmt) ap
    else
      let r := directiveAt c0 fmt (ap 0)
      r.1 ++ printf (fmt.drop r.2.2) fun k => ap (r.2.1 + k)
termination_by fmt => fmt.length

/-- The loop of `vprintf`; `state` tells whether the last character was a '%'. -/
def User.vprintf (state : Bool) (fmt : List UInt8) (ap : Nat → BitVec 64) : List Piece :=
  match fmt with
  | [] => []
  | c0 :: fmt =>
    if state = false then
      if c0 = '%'.toUInt8 then vprintf true fmt ap else .char c0 :: vprintf false fmt ap
    else
      let r := directiveAt c0 fmt (ap 0)
      r.1 ++ vprintf false (fmt.drop r.2.2) fun k => ap (r.2.1 + k)
termination_by fmt.length

/-- The digits of the kernel and those of the user library. -/
def lower (d : Nat) : UInt8 :=
  (['0', '1', '2', '3', '4', '5', '6', '7', '8', '9', 'a', 'b', 'c', 'd', 'e', 'f'].getD d '0').toUInt8

def upper (d : Nat) : UInt8 :=
  (['0', '1', '2', '3', '4', '5', '6', '7', '8', '9', 'A', 'B', 'C', 'D', 'E', 'F'].getD d '0').toUInt8

/-- The `do` loop of `printint`: the digits of `x`, the lowest first. -/
def digitLoop (table : Nat → UInt8) (base x : Nat) : List UInt8 :=
  table (x % base) ::
    if _h : x / base ≠ 0 ∧ 1 < base then digitLoop table base (x / base) else []
termination_by x
decreasing_by exact Nat.div_lt_self (Nat.pos_of_ne_zero fun h0 => _h.1 (by simp [h0])) _h.2

/-- `printint`: what is stored in `buf`, from index 0 on. The kernel's `xx` is a `long long`, that of
the user library an `int`. -/
def printint {w : Nat} (table : Nat → UInt8) (xx : BitVec w) (base : Nat) (sign : Bool) :
    List UInt8 :=
  if sign = true ∧ xx.toInt < 0 then digitLoop table base (-xx).toNat ++ ['-'.toUInt8]
  else digitLoop table base xx.toNat

/-- `printptr` -/
def printptr (table : Nat → UInt8) (x : BitVec 64) : List UInt8 :=
  '0'.toUInt8 :: 'x'.toUInt8 :: (range 16).map fun i => table ((x <<< (4 * i)) >>> 60).toNat

/-- The number that the kernel passes on to `printint`. -/
def Kernel.fetch (long : Bool) (a : BitVec 64) : BitVec 64 :=
  if long then a else (a.setWidth 32).signExtend 64

/-- `vprintf` passes a `uint64` on as an `int`. -/
def User.fetch (_ : Bool) (a : BitVec 64) : BitVec 32 := a.setWidth 32

/-- What an item stores in the buffer of `printint`. -/
def Piece.stores {w : Nat} (table : Nat → UInt8) (fetch : Bool → BitVec 64 → BitVec w) :
    Piece → List UInt8
  | .int long conv a => printint table (fetch long a) conv.base conv.sign
  | _ => []

/-- The text of an item, unless `buf[16]` is overrun; `strs` are the strings in memory. -/
def Piece.print {w : Nat} (table : Nat → UInt8) (fetch : Bool → BitVec 64 → BitVec w)
    (strs : BitVec 64 → List UInt8) : Piece → Option (List UInt8)
  | .char c => some [c]
  | .int long conv a =>
    let buf := (Piece.int long conv a).stores table fetch
    if buf.length ≤ 16 then some buf.reverse else none
  | .ptr a => some (printptr table a)
  | .str a => some (if a = 0 then "(null)".toList.map Char.toUInt8 else strs a)

/-- A number read from a word. -/
def readAs (sign : Bool) {w : Nat} (x : BitVec w) : Int := if sign then x.toInt else x.toNat

/-- The argument of a number directive: 32 bits of the slot, or all of it. -/
def argument (long : Bool) (conv : Conv) (a : BitVec 64) : Int :=
  if long then readAs conv.sign a else readAs conv.sign (a.setWidth 32)

/-- The numeral of `v`. -/
def numeral (table : Nat → UInt8) (base : Nat) (v : Int) : List UInt8 :=
  (if v < 0 then ['-'.toUInt8] else []) ++
    ((if v = 0 then [0] else base.digits v.natAbs).map table).reverse

/-- The text an item stands for. -/
def Piece.text (table : Nat → UInt8) (strs : BitVec 64 → List UInt8) : Piece → List UInt8
  | .char c => [c]
  | .int long conv a => numeral table conv.base (argument long conv a)
  | .ptr a => printptr table a
  | .str a => if a = 0 then "(null)".toList.map Char.toUInt8 else strs a

/-- The numbers that the kernel can print in 16 characters. -/
def Piece.Short : Piece → Prop
  | .int true .d a => -10 ^ 15 < a.toInt ∧ a.toInt < 10 ^ 16
  | .int true .u a => a.toNat < 10 ^ 16
  | .int false .u a => (a.setWidth 32).toNat < 2 ^ 31
  | _ => True

/-- The arguments that both formatters print right. -/
def Piece.Exact : Piece → Prop
  | .int false .d _ => True
  | .int false _ a => (a.setWidth 32).toNat < 2 ^ 31
  | .int true .d a => -2 ^ 31 ≤ a.toInt ∧ a.toInt < 2 ^ 31
  | .int true _ a => a.toNat < 2 ^ 32
  | _ => True

/-- Both formatters take the format apart in the same way. -/
theorem vprintf_eq (fmt : List UInt8) (ap : Nat → BitVec 64) :
    User.vprintf false fmt ap = Kernel.printf fmt ap := by
  induction fmt, ap using Kernel.printf.induct with
  | case1 => simp [User.vprintf, Kernel.printf]
  | case2 _ cx hc => simp [User.vprintf, Kernel.printf, hc]
  | case3 _ cx hc => simp [User.vprintf, Kernel.printf, not_not.mp hc]
  | case4 ap cx c0 fmt hc ih =>
    rw [User.vprintf, Kernel.printf, if_pos rfl, if_neg hc, if_pos hc, ih]
  | case5 ap cx c0 fmt hc r ih =>
    rw [User.vprintf, Kernel.printf, if_pos rfl, if_pos (not_not.mp hc), if_neg hc, User.vprintf,
      if_neg Bool.noConfusion]
    exact congrArg _ ih

variable {table : Nat → UInt8} {base : Nat} {w : Nat}

theorem digitLoop_eq (hb : 1 < base) (x : Nat) :
    digitLoop table base x = (if x = 0 then [0] else base.digits x).map table := by
  induction x using Nat.strong_induction_on with
  | _ x ih =>
    rw [digitLoop]
    by_cases hx : x = 0
    · simp [hx]
    rw [if_neg hx, digits_def' hb (Nat.pos_of_ne_zero hx), map_cons]
    by_cases hq : x / base = 0
    · simp [hq]
    · rw [dif_pos ⟨hq, hb⟩, ih _ (Nat.div_lt_self (Nat.pos_of_ne_zero hx) hb), if_neg hq]

theorem length_digitLoop (hb : 1 < base) (x : Nat) {k : Nat} (hk : 0 < k) :
    (digitLoop table base x).length ≤ k ↔ x < base ^ k := by
  rw [digitLoop_eq hb, length_map, ← digits_length_le_iff hb]
  split_ifs with hx
  · simp [hx]
    omega
  · rfl

theorem printint_eq (xx : BitVec w) (sign : Bool) :
    printint table xx base sign = digitLoop table base (readAs sign xx).natAbs ++
      if readAs sign xx < 0 then ['-'.toUInt8] else [] := by
  unfold printint readAs
  cases sign with
  | false => simp
  | true =>
    have hlt := xx.isLt
    have hint := xx.toInt_eq_toNat_cond
    simp only [true_and, if_true]
    split_ifs with hneg
    · have hx : (-xx).toNat = xx.toInt.natAbs := by
        rw [BitVec.toNat_neg, mod_eq_of_lt] <;> split_ifs at hint <;> omega
      rw [hx]
    · have hx : xx.toNat = xx.toInt.natAbs := by
        split_ifs at hint <;> omega
      rw [hx, append_nil]

theorem reverse_printint (hb : 1 < base) (xx : BitVec w) (sign : Bool) :
    (printint table xx base sign).reverse = numeral table base (readAs sign xx) := by
  rw [printint_eq, digitLoop_eq hb, numeral, reverse_append]
  simp only [Int.natAbs_eq_zero]
  congr 1
  split_ifs <;> rfl

theorem length_printint (hb : 1 < base) (xx : BitVec w) (sign : Bool) :
    (printint table xx base sign).length ≤ 16 ↔
      (readAs sign xx).natAbs < base ^ if readAs sign xx < 0 then 15 else 16 := by
  rw [printint_eq, length_append]
  split_ifs
  · exact Nat.succ_le_succ_iff.trans (length_digitLoop hb _ (by decide))
  · exact length_digitLoop hb _ (by decide)

theorem Conv.one_lt_base (conv : Conv) : 1 < conv.base := by cases conv <;> decide

theorem toInt_fetch (a : BitVec 64) : (Kernel.fetch false a).toInt = (a.setWidth 32).toInt :=
  BitVec.toInt_signExtend_of_le (by decide)

theorem toNat_fetch (a : BitVec 64) : (Kernel.fetch false a).toNat =
    if (a.setWidth 32).toNat < 2 ^ 31 then (a.setWidth 32).toNat else
      (a.setWidth 32).toNat + (2 ^ 64 - 2 ^ 32) := by
  have := toInt_fetch a
  rw [BitVec.toInt_eq_toNat_cond, BitVec.toInt_eq_toNat_cond] at this
  have := (a.setWidth 32).isLt
  have := (Kernel.fetch false a).isLt
  split_ifs at * <;> omega

/-- The kernel's number fits into the buffer of `printint` unless it is too long. -/
theorem stores_in_buffer (it : Piece) :
    (∀ i < (it.stores lower Kernel.fetch).length, i ≤ 15) ↔ it.Short := by
  have hlen : (∀ i < (it.stores lower Kernel.fetch).length, i ≤ 15) ↔
      (it.stores lower Kernel.fetch).length ≤ 16 :=
    ⟨fun h => by by_contra hlt; exact absurd (h 16 (by omega)) (by decide), fun h i hi => by omega⟩
  rw [hlen]
  cases it with
  | char | ptr | str => simp [Piece.stores, Piece.Short]
  | int long conv a =>
    rw [Piece.stores, length_printint conv.one_lt_base]
    have hint := (a.setWidth 32).toInt_lt
    have hint' := (a.setWidth 32).le_toInt
    have hlt := (a.setWidth 32).isLt
    have hlt' := a.isLt
    have htrue : Kernel.fetch true a = a := rfl
    cases long <;> cases conv <;>
      simp only [Piece.Short, Conv.sign, Conv.base, readAs, if_true, toInt_fetch, htrue, iff_true,
        Bool.false_eq_true, if_false, Int.natAbs_natCast, toNat_fetch]
    all_goals split_ifs <;> omega

/-- `printint` stays in its buffer exactly if every number of the format string is short enough. -/
theorem printf_stays_in_buffer (fmt : List UInt8) (ap : Nat → BitVec 64) :
    (∀ it ∈ Kernel.printf fmt ap, ∀ i < (it.stores lower Kernel.fetch).length, i ≤ 15) ↔
      ∀ it ∈ Kernel.printf fmt ap, it.Short :=
  forall₂_congr fun it _ => stores_in_buffer it

/-- The 17 digits of "%lu". -/
theorem printf_overruns_buffer : Kernel.printf ("%lu".toList.map Char.toUInt8) (fun _ => 10 ^ 16) =
      [.int true .u (10 ^ 16)] ∧
    ((Piece.int true .u (10 ^ 16)).stores lower Kernel.fetch).length = 17 := by decide +kernel

section Numeral

variable {g : UInt8 → Nat} (hg : ∀ d < 16, g (table d) = d ∧ table d ≠ '-'.toUInt8) (hb : 1 < base)
  (hb16 : base ≤ 16)
include hb hb16

omit hg in
theorem digit_lt {v : Int} {d : Nat} (hd : d ∈ if v = 0 then [0] else base.digits v.natAbs) :
    d < 16 := by
  split_ifs at hd
  · rw [mem_singleton.mp hd]
    decide
  · exact (digits_lt_base hb hd).trans_le hb16

include hg

theorem mem_numeral (v : Int) : '-'.toUInt8 ∈ numeral table base v ↔ v < 0 := by
  rw [numeral, mem_append, mem_reverse, mem_map]
  constructor
  · rintro (hmem | ⟨d, hd, heq⟩)
    · by_contra hv
      simp [hv] at hmem
    · exact absurd heq (hg d (digit_lt hb hb16 hd)).2
  · intro hv
    simp [hv]

theorem natAbs_numeral (v : Int) :
    ofDigits base (((numeral table base v).filter (· ≠ '-'.toUInt8)).reverse.map g) =
      v.natAbs := by
  have hsign : (if v < 0 then ['-'.toUInt8] else []).filter (· ≠ '-'.toUInt8) = [] := by
    split_ifs <;> simp
  rw [numeral, filter_append, hsign, nil_append, filter_reverse, reverse_reverse,
    filter_eq_self.mpr, map_map, map_congr_left (g := id), map_id]
  · split_ifs with hv
    · simp [hv]
    · exact ofDigits_digits ..
  · exact fun d hd => (hg d (digit_lt hb hb16 hd)).1
  · intro c hc
    obtain ⟨d, hd, rfl⟩ := mem_map.mp hc
    exact decide_eq_true (hg d (digit_lt hb hb16 hd)).2

theorem numeral_inj {v v' : Int} : numeral table base v = numeral table base v' ↔ v = v' := by
  refine ⟨fun h => ?_, fun h => by rw [h]⟩
  have hsign := mem_numeral hg hb hb16 v
  have habs := natAbs_numeral hg hb hb16 v
  rw [h, mem_numeral hg hb hb16] at hsign
  rw [h, natAbs_numeral hg hb hb16] at habs
  omega

end Numeral

/-- The digit that a character stands for. -/
def ofDigit (c : UInt8) : Nat :=
  if c < 'A'.toUInt8 then (c - '0'.toUInt8).toNat
  else if c < 'a'.toUInt8 then (c - 'A'.toUInt8).toNat + 10 else (c - 'a'.toUInt8).toNat + 10

/-- A number is printed right if it is the argument and fits into the buffer. -/
theorem print_int_iff (hg : ∀ d < 16, ofDigit (table d) = d ∧ table d ≠ '-'.toUInt8)
    {fetch : Bool → BitVec 64 → BitVec w} {strs : BitVec 64 → List UInt8} {long : Bool} {conv : Conv}
    {a : BitVec 64} : (Piece.int long conv a).print table fetch strs =
        some ((Piece.int long conv a).text table strs) ↔
      ((Piece.int long conv a).stores table fetch).length ≤ 16 ∧
        readAs conv.sign (fetch long a) = argument long conv a := by
  have hb16 : conv.base ≤ 16 := by cases conv <;> decide
  unfold Piece.print Piece.text
  dsimp only
  split_ifs with hlen
  · rw [Option.some_inj, Piece.stores, reverse_printint conv.one_lt_base,
      numeral_inj hg conv.one_lt_base hb16]
    exact (and_iff_right hlen).symm
  · simp [hlen]

theorem print_iff_exact (strs : BitVec 64 → List UInt8) (it : Piece) :
    (it.print lower Kernel.fetch strs = some (it.text lower strs) ∧
      it.print upper User.fetch strs = some (it.text upper strs)) ↔ it.Exact := by
  cases it with
  | char | ptr | str => exact ⟨fun _ => trivial, fun _ => ⟨rfl, rfl⟩⟩
  | int long conv a =>
    rw [print_int_iff (by decide), print_int_iff (by decide), Piece.stores, Piece.stores,
      length_printint conv.one_lt_base, length_printint conv.one_lt_base]
    have hlow : (a.setWidth 32).toNat = a.toNat % 2 ^ 32 := a.toNat_setWidth 32
    have hint := a.toInt_eq_toNat_cond
    have hint32 := (a.setWidth 32).toInt_eq_toNat_cond
    have hlt := a.isLt
    have htrue : Kernel.fetch true a = a := rfl
    cases long <;> cases conv <;>
      simp only [Piece.Exact, Conv.sign, Conv.base, readAs, argument, if_true, toInt_fetch, htrue,
        iff_true, and_true, Bool.false_eq_true, if_false, Int.natAbs_natCast, toNat_fetch, User.fetch]
    all_goals split_ifs at hint hint32 ⊢ <;> omega

/-- Both formatters print the text that each item of the format string stands for, up to the case of
hexadecimal digits, exactly if the arguments are such that no bits are lost or added. -/
theorem printf_prints_argument (strs : BitVec 64 → List UInt8) (fmt : List UInt8)
    (ap : Nat → BitVec 64) :
    ((Kernel.printf fmt ap).map (·.print lower Kernel.fetch strs) =
        (Kernel.printf fmt ap).map (fun it => some (it.text lower strs)) ∧
      (User.vprintf false fmt ap).map (·.print upper User.fetch strs) =
        (Kernel.printf fmt ap).map fun it => some (it.text upper strs)) ↔
      ∀ it ∈ Kernel.printf fmt ap, it.Exact := by
  rw [vprintf_eq, map_inj_left, map_inj_left, ← forall₂_and]
  exact forall₂_congr fun it _ => print_iff_exact strs it

/-- "%ld" of 2^32 is 0 in the user library, "%x" of 0x80000000 has 16 digits in the kernel. -/
theorem printf_loses_and_adds_bits :
    User.vprintf false ("%ld".toList.map Char.toUInt8) (fun _ => 2 ^ 32) = [.int true .d (2 ^ 32)] ∧
    (Piece.int true .d (2 ^ 32)).print upper User.fetch (fun _ => []) = some ['0'.toUInt8] ∧
    Kernel.printf ("%x".toList.map Char.toUInt8) (fun _ => 2 ^ 31) = [.int false .x (2 ^ 31)] ∧
    (Piece.int false .x (2 ^ 31)).print lower Kernel.fetch (fun _ => []) =
      some ("ffffffff80000000".toList.map Char.toUInt8) := by decide +kernel

end Xv6
