import Mathlib.Computability.Language

namespace Xv6.User

open Computability List

/-- The loop of `matchstar` over the text, with `matchhere` of the pattern after the star. -/
def matchstar (here : List UInt8 → Bool) (c : UInt8) : List UInt8 → Bool
  | [] => here []
  | x :: text => here (x :: text) || ((x = c || c = '.'.toUInt8) && matchstar here c text)

/-- The branch of `matchhere` that takes one character of the text. -/
def matchchar (c : UInt8) (here : List UInt8 → Bool) : List UInt8 → Bool
  | [] => false
  | x :: text => (c = '.'.toUInt8 || c = x) && here text

/-- `matchhere`. A C string is the list of its bytes before the NUL, `re + 1` is its tail. -/
def matchhere : List UInt8 → List UInt8 → Bool
  | [], _ => true
  | [c], text =>
    if c = '$'.toUInt8 then text.isEmpty else matchchar c (matchhere []) text
  | c :: d :: re, text =>
    if d = '*'.toUInt8 then matchstar (matchhere re) c text
    else matchchar c (matchhere (d :: re)) text

/-- The loop of `match` over the places of the text. -/
def matchFrom (re : List UInt8) : List UInt8 → Bool
  | [] => matchhere re []
  | x :: text => matchhere re (x :: text) || matchFrom re text

/-- `match` of `grep.c`. -/
def grepMatch (re text : List UInt8) : Bool :=
  if re.head? = some '^'.toUInt8 then matchhere re.tail text else matchFrom re text

/-- An item of a pattern: a character with a star after it, or without. -/
inductive Item
  | star (c : UInt8)
  | one (c : UInt8)

/-- A pattern without its anchor: the items, and whether the final `$` follows them. -/
structure Pattern where
  items : List Item
  final : Bool

def Pattern.cons (i : Item) (p : Pattern) : Pattern := { p with items := i :: p.items }

/-- How a pattern is read after its anchor. -/
def Pattern.readItems : List UInt8 → Pattern
  | [] => ⟨[], false⟩
  | [c] => if c = '$'.toUInt8 then ⟨[], true⟩ else .cons (.one c) (readItems [])
  | c :: d :: re =>
    if d = '*'.toUInt8 then .cons (.star c) (readItems re) else .cons (.one c) (readItems (d :: re))

def Pattern.read (re : List UInt8) : Pattern :=
  readItems (if re.head? = some '^'.toUInt8 then re.tail else re)

/-- The texts of one character that `c` stands for. -/
def charLang (c : UInt8) : Language UInt8 := {w | ∃ x, w = [x] ∧ (c = '.'.toUInt8 ∨ c = x)}

def Item.lang : Item → Language UInt8
  | star c => (charLang c)∗
  | one c => charLang c

/-- The language of the items. -/
def Pattern.lang (p : Pattern) : Language UInt8 := (p.items.map Item.lang).prod

/-- The texts that may follow a match. -/
def Pattern.after (p : Pattern) : Language UInt8 := {post | p.final = true → post = []}

/-- The texts that start with a match. -/
def Pattern.texts (p : Pattern) : Language UInt8 := p.lang * p.after

variable {text : List UInt8}

theorem Pattern.mem_texts {p : Pattern} : text ∈ p.texts ↔
    ∃ w post, text = w ++ post ∧ w ∈ p.lang ∧ (p.final = true → post = []) := by
  constructor
  · rintro ⟨w, hw, post, hpost, rfl⟩
    exact ⟨w, post, rfl, hw, hpost⟩
  · rintro ⟨w, post, rfl, hw, hpost⟩
    exact ⟨w, hw, post, hpost, rfl⟩

theorem Pattern.texts_cons (i : Item) (p : Pattern) : (p.cons i).texts = i.lang * p.texts := by
  simp only [texts, lang, cons, map_cons, prod_cons, mul_assoc]
  rfl

variable {L : Language UInt8}

theorem cons_mem_charLang_mul {c x : UInt8} :
    x :: text ∈ charLang c * L ↔ (c = '.'.toUInt8 ∨ c = x) ∧ text ∈ L := by
  rw [Language.mem_mul]
  constructor
  · rintro ⟨_, ⟨y, rfl, hy⟩, b, hb, heq⟩
    obtain ⟨rfl, rfl⟩ := cons.inj heq
    exact ⟨hy, hb⟩
  · rintro ⟨hc, htext⟩
    exact ⟨[x], ⟨x, rfl, hc⟩, text, htext, rfl⟩

theorem nil_notMem_charLang_mul {c : UInt8} : [] ∉ charLang c * L := by
  rintro ⟨_, ⟨y, rfl, -⟩, b, -, heq⟩
  cases heq

section

variable {here : List UInt8 → Bool} (h : ∀ text, here text = true ↔ text ∈ L) (c : UInt8)
include h

theorem matchchar_iff (text : List UInt8) :
    matchchar c here text = true ↔ text ∈ charLang c * L := by
  cases text with
  | nil => simp [matchchar, nil_notMem_charLang_mul]
  | cons x text => simp [matchchar, cons_mem_charLang_mul, h]

omit h in
/-- The star taken apart: no instance, or one instance and the star again. -/
theorem mem_kstar_mul {l : Language UInt8} : text ∈ l∗ * L ↔ text ∈ L ∨ text ∈ l * (l∗ * L) := by
  conv_lhs => rw [← Language.one_add_self_mul_kstar_eq_kstar, add_mul, one_mul, mul_assoc]
  exact Language.mem_add ..

theorem matchstar_iff (text : List UInt8) :
    matchstar here c text = true ↔ text ∈ (charLang c)∗ * L := by
  induction text with
  | nil => simp [matchstar, mem_kstar_mul, nil_notMem_charLang_mul, h]
  | cons x text ih =>
    rw [mem_kstar_mul, cons_mem_charLang_mul, ← ih, ← h]
    simp [matchstar, or_comm, eq_comm (a := x)]

end

theorem matchhere_iff (re text : List UInt8) :
    matchhere re text = true ↔ text ∈ (Pattern.readItems re).texts := by
  induction re using Pattern.readItems.induct generalizing text with
  | case1 | case2 => simp [matchhere, Pattern.readItems, Pattern.mem_texts, Pattern.lang]
  | case3 c hc ih =>
    have hread : Pattern.readItems [c] = .cons (.one c) (.readItems []) := if_neg hc
    rw [matchhere, if_neg hc, matchchar_iff ih, hread, Pattern.texts_cons]
    rfl
  | case4 c re ih =>
    rw [matchhere, if_pos rfl, matchstar_iff ih, Pattern.readItems, if_pos rfl, Pattern.texts_cons]
    rfl
  | case5 c d re hd ih =>
    rw [matchhere, if_neg hd, matchchar_iff ih, Pattern.readItems, if_neg hd, Pattern.texts_cons]
    rfl

theorem matchFrom_iff (re text : List UInt8) : matchFrom re text = true ↔
    ∃ pre rest, text = pre ++ rest ∧ rest ∈ (Pattern.readItems re).texts := by
  induction text with
  | nil => simp [matchFrom, matchhere_iff]
  | cons x text ih =>
    rw [matchFrom, Bool.or_eq_true, matchhere_iff, ih]
    constructor
    · rintro (hhere | ⟨pre, rest, rfl, hrest⟩)
      · exact ⟨[], x :: text, rfl, hhere⟩
      · exact ⟨x :: pre, rest, rfl, hrest⟩
    · rintro ⟨pre, rest, heq, hrest⟩
      cases pre with
      | nil => exact .inl (heq ▸ hrest)
      | cons y pre => exact .inr ⟨pre, rest, (cons.inj heq).2, hrest⟩

/-- The matcher decides the language of its pattern. -/
theorem grepMatch_iff (re text : List UInt8) : grepMatch re text = true ↔
    ∃ pre w post, text = pre ++ w ++ post ∧ w ∈ (Pattern.read re).lang ∧
      (re.head? = some '^'.toUInt8 → pre = []) ∧ ((Pattern.read re).final = true → post = []) := by
  have hmatch : grepMatch re text = true ↔ ∃ pre rest, text = pre ++ rest ∧
      rest ∈ (Pattern.read re).texts ∧ (re.head? = some '^'.toUInt8 → pre = []) := by
    unfold grepMatch Pattern.read
    split_ifs with hanchor
    · simp [matchhere_iff, hanchor]
    · simp [matchFrom_iff, hanchor]
  rw [hmatch]
  constructor
  · rintro ⟨pre, rest, rfl, hrest, hpre⟩
    obtain ⟨w, post, rfl, hw, hpost⟩ := Pattern.mem_texts.1 hrest
    exact ⟨pre, w, post, (List.append_assoc ..).symm, hw, hpre, hpost⟩
  · rintro ⟨pre, w, post, rfl, hw, hpre, hpost⟩
    exact ⟨pre, w ++ post, List.append_assoc .., Pattern.mem_texts.2 ⟨w, post, rfl, hw, hpost⟩, hpre⟩

end Xv6.User
