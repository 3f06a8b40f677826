import Mathlib

namespace NameTree

open Function List Option Finset

section PutAt

variable {α : Type} {l : List α} {k : Nat}

/-- The list with `x` at position `k`, which may be its end. -/
def putAt (l : List α) (k : Nat) (x : α) : List α := l.take k ++ x :: l.drop (k + 1)

theorem getElem?_putAt (h : k ≤ l.length) (x : α) (j : Nat) :
    (putAt l k x)[j]? = if j = k then some x else l[j]? := by
  have hlen : (l.take k).length = k := by simp [h]
  unfold putAt
  by_cases hlt : j < k
  · rw [getElem?_append_left (by omega), getElem?_take_of_lt hlt, if_neg (by omega)]
  rw [getElem?_append_right (by omega), hlen]
  by_cases heq : j = k
  · subst heq
    simp
  · obtain ⟨m, hm⟩ : ∃ m, j - k = m + 1 := ⟨j - k - 1, by omega⟩
    rw [hm, getElem?_cons_succ, getElem?_drop, if_neg heq]
    congr 1
    omega

/-- What was at position `k` is no longer counted, and `x` is. -/
theorem count_putAt [DecidableEq α] [BEq α] [LawfulBEq α] (h : k ≤ l.length) (x y : α) :
    (putAt l k x).count y + (if l[k]? = some y then 1 else 0) =
      l.count y + (if x = y then 1 else 0) := by
  have hsplit : l.count y = (l.take k).count y + (l.drop k).count y := by
    rw [← count_append, take_append_drop]
  unfold putAt
  rw [count_append, count_cons, hsplit]
  by_cases hlt : k < l.length
  · rw [drop_eq_getElem_cons hlt, count_cons, getElem?_eq_getElem hlt]
    simp only [some.injEq, beq_iff_eq]
    omega
  · rw [getElem?_eq_none (by omega), drop_eq_nil_of_le (by omega), drop_eq_nil_of_le (by omega)]
    simp only [beq_iff_eq, reduceCtorEq, if_false]
    omega

end PutAt

/-- A directory: its parent, and its slots, which are free or name a node. -/
structure Node (ν : Type) where
  parent : ν
  slots : List (Option ν)

variable {ν : Type} [DecidableEq ν]

def Node.put (x : Node ν) (k : Nat) (o : Option ν) : Node ν := { x with slots := putAt x.slots k o }

/-- Slot `k` of directory `d` names `i`. -/
def Names (t : ν → Option (Node ν)) (d : ν) (k : Nat) (i : ν) : Prop :=
  ∃ x, t d = some x ∧ x.slots[k]? = some (some i)

inductive Reach (t : ν → Option (Node ν)) (top : ν) : ν → Prop
  | root : Reach t top top
  | name {d i : ν} {k : Nat} (hd : Reach t top d) (hn : Names t d k i) : Reach t top i

/-- The directories form a tree: each of them but the root is named once, by its parent. -/
structure Tree (top : ν) (t : ν → Option (Node ν)) : Prop where
  root : ∃ x, t top = some x ∧ x.parent = top
  unnamed : ∀ d k, ¬ Names t d k top
  named : ∀ d x, t d = some x → d ≠ top → ∃ k, Names t x.parent k d
  once : ∀ i x d k d' k', t i = some x → Names t d k i → Names t d' k' i → d = d' ∧ k = k'
  reach : ∀ d x, t d = some x → Reach t top d

variable {top d i : ν} {t : ν → Option (Node ν)} {x y : Node ν} {k : Nat} {o : Option ν}

theorem names_put (hd : t d = some x) (hk : k ≤ x.slots.length) {d' : ν} {j : Nat} :
    Names (update t d (some (x.put k o))) d' j i ↔
      if d' = d ∧ j = k then o = some i else Names t d' j i := by
  unfold Names
  by_cases hd' : d' = d
  · subst hd'
    simp only [update_self, some.injEq, exists_eq_left', hd, Node.put, true_and]
    rw [getElem?_putAt hk]
    split_ifs <;> simp
  · rw [update_of_ne hd', if_neg fun h => hd' h.1]

theorem names_remove (hold : ∀ k j, ¬ Names t i k j) {d' : ν} {j : Nat} {i' : ν} :
    Names (update t i none) d' j i' ↔ Names t d' j i' := by
  by_cases hd' : d' = i
  · subst hd'
    refine iff_of_false ?_ (hold j i')
    rintro ⟨z, hz, hj⟩
    rw [update_self] at hz
    cases hz
  · unfold Names
    rw [update_of_ne hd']

omit [DecidableEq ν] in
theorem Reach.congr {t' : ν → Option (Node ν)} (h : ∀ d k i, Names t d k i → Names t' d k i)
    (hr : Reach t top i) : Reach t' top i := by
  induction hr with
  | root => exact .root
  | name _ hn ih => exact .name ih (h _ _ _ hn)

namespace Tree

variable (h : Tree top t)
include h

omit [DecidableEq ν] in
theorem ne_root (hi : t i = none) : i ≠ top := by
  intro heq
  obtain ⟨x, hx, -⟩ := h.root
  rw [heq, hx] at hi
  cases hi

theorem parent_dir (hd : t d = some x) : ∃ y, t x.parent = some y := by
  by_cases hr : d = top
  · obtain ⟨y, hy, hp⟩ := h.root
    rw [← hr, hd] at hy
    cases hy
    exact ⟨x, by rw [hp, ← hr, hd]⟩
  · obtain ⟨k, y, hy, -⟩ := h.named d x hd hr
    exact ⟨y, hy⟩

/-- Slot `k` stops naming what it named, if anything, and names another node or none; neither is a
directory. -/
theorem put (hd : t d = some x) (hk : k ≤ x.slots.length) (hold : ∀ i, Names t d k i → t i = none)
    (hnew : ∀ i, o = some i → t i = none) : Tree top (update t d (some (x.put k o))) := by
  have hdir : ∀ {i y}, update t d (some (x.put k o)) i = some y →
      ∃ z, t i = some z ∧ y.parent = z.parent := by
    intro i y hy
    by_cases hi : i = d
    · subst hi
      rw [update_self] at hy
      cases hy
      exact ⟨x, hd, rfl⟩
    · rw [update_of_ne hi] at hy
      exact ⟨y, hy, rfl⟩
  have hnames : ∀ {d' j i z}, t i = some z →
      (Names (update t d (some (x.put k o))) d' j i ↔ Names t d' j i) := by
    intro d' j i z hz
    rw [names_put hd hk]
    split_ifs with heq
    · obtain ⟨rfl, rfl⟩ := heq
      constructor
      · intro ho
        rw [hnew i ho] at hz
        cases hz
      · intro hn
        rw [hold i hn] at hz
        cases hz
    · rfl
  obtain ⟨r, hr, hrp⟩ := h.root
  have hreach : ∀ {i}, Reach t top i → ∀ {z}, t i = some z →
      Reach (update t d (some (x.put k o))) top i := by
    intro i hi
    induction hi with
    | root => intro _ _; exact .root
    | name _ hn ih =>
      intro z hz
      obtain ⟨y, hy, hj⟩ := hn
      exact .name (ih hy) ((hnames hz).mpr ⟨y, hy, hj⟩)
  constructor
  · by_cases hrd : top = d
    · subst hrd
      rw [hr] at hd
      cases hd
      exact ⟨_, update_self .., hrp⟩
    · exact ⟨r, by rw [update_of_ne hrd, hr], hrp⟩
  · intro d' j
    rw [hnames hr]
    exact h.unnamed d' j
  · intro i y hy hne
    obtain ⟨z, hz, hp⟩ := hdir hy
    obtain ⟨j, hj⟩ := h.named i z hz hne
    exact ⟨j, by rw [hp]; exact (hnames hz).mpr hj⟩
  · intro i y d1 k1 d2 k2 hy h1 h2
    obtain ⟨z, hz, -⟩ := hdir hy
    exact h.once i z d1 k1 d2 k2 hz ((hnames hz).mp h1) ((hnames hz).mp h2)
  · intro i y hy
    obtain ⟨z, hz, -⟩ := hdir hy
    exact hreach (h.reach i z hz) hz

omit h in
omit [DecidableEq ν] in
theorem single (ht : ∀ d, d ≠ top → t d = none) (hx : t top = some x) (hp : x.parent = top)
    (hslots : some top ∉ x.slots) : Tree top t := by
  have htop : ∀ {d y}, t d = some y → d = top := by
    intro d y hd
    by_contra hne
    rw [ht d hne] at hd
    cases hd
  have hunnamed : ∀ d k, ¬ Names t d k top := by
    rintro d k ⟨y, hy, hk⟩
    rw [htop hy, hx] at hy
    cases hy
    exact hslots (mem_of_getElem? hk)
  refine ⟨⟨x, hx, hp⟩, hunnamed, ?_, ?_, ?_⟩
  · intro d y hd hne
    exact absurd (htop hd) hne
  · intro i y d k d' k' hi hn
    rw [htop hi] at hn
    exact absurd hn (hunnamed d k)
  · intro d y hd
    rw [htop hd]
    exact .root

/-- A node that one slot names becomes a directory that names no directory. -/
theorem insert (hi : t i = none) (hn : Names t d k i)
    (honce : ∀ d' k', Names t d' k' i → d' = d ∧ k' = k) (hp : y.parent = d)
    (hslots : ∀ j, some j ∈ y.slots → j ≠ i ∧ t j = none) : Tree top (update t i (some y)) := by
  have hkeep : ∀ {d' j i'}, Names t d' j i' → Names (update t i (some y)) d' j i' := by
    rintro d' j i' ⟨z, hz, hj⟩
    refine ⟨z, ?_, hj⟩
    rw [update_of_ne, hz]
    intro heq
    rw [heq, hi] at hz
    cases hz
  have hold : ∀ {d' j i' z}, update t i (some y) i' = some z →
      Names (update t i (some y)) d' j i' → Names t d' j i' := by
    rintro d' j i' z hz ⟨w, hw, hj⟩
    by_cases hd' : d' = i
    · subst hd'
      rw [update_self] at hw
      cases hw
      obtain ⟨hne, hnone⟩ := hslots i' (mem_of_getElem? hj)
      rw [update_of_ne hne, hnone] at hz
      cases hz
    · rw [update_of_ne hd'] at hw
      exact ⟨w, hw, hj⟩
  have hreach : ∀ {j}, Reach t top j → Reach (update t i (some y)) top j :=
    fun hr => hr.congr fun _ _ _ => hkeep
  obtain ⟨r, hr, hrp⟩ := h.root
  have hr' : update t i (some y) top = some r := by
    rw [update_of_ne (h.ne_root hi).symm, hr]
  constructor
  · exact ⟨r, hr', hrp⟩
  · intro d' j hj
    exact h.unnamed d' j (hold hr' hj)
  · intro j z hz hne
    by_cases hj : j = i
    · subst hj
      rw [update_self] at hz
      cases hz
      exact ⟨k, by rw [hp]; exact hkeep hn⟩
    · rw [update_of_ne hj] at hz
      obtain ⟨l, hl⟩ := h.named j z hz hne
      exact ⟨l, hkeep hl⟩
  · intro j z d1 k1 d2 k2 hz h1 h2
    replace h1 := hold hz h1
    replace h2 := hold hz h2
    by_cases hj : j = i
    · subst hj
      obtain ⟨rfl, rfl⟩ := honce d1 k1 h1
      obtain ⟨rfl, rfl⟩ := honce d2 k2 h2
      exact ⟨rfl, rfl⟩
    · rw [update_of_ne hj] at hz
      exact h.once j z d1 k1 d2 k2 hz h1 h2
  intro j z hz
  by_cases hj : j = i
  · subst hj
    obtain ⟨w, hw, hs⟩ := hn
    exact .name (hreach (h.reach d w hw)) (hkeep ⟨w, hw, hs⟩)
  · rw [update_of_ne hj] at hz
    exact hreach (h.reach j z hz)

variable (hroot : i ≠ top) (hnone : ∀ k j, ¬ Names t i k j)
include hroot hnone

theorem parent_ne (hd : t d = some x) : x.parent ≠ i := by
  intro hp
  by_cases hr : d = top
  · obtain ⟨y, hy, hpar⟩ := h.root
    rw [← hr, hd] at hy
    cases hy
    exact hroot (hp.symm.trans hpar)
  · obtain ⟨k, hk⟩ := h.named d x hd hr
    rw [hp] at hk
    exact hnone k d hk

theorem remove : Tree top (update t i none) := by
  have hnames : ∀ {d' j i'}, Names (update t i none) d' j i' ↔ Names t d' j i' := names_remove hnone
  have hdir : ∀ {j z}, update t i none j = some z → t j = some z := by
    intro j z hz
    by_cases hj : j = i
    · subst hj
      rw [update_self] at hz
      cases hz
    · rwa [update_of_ne hj] at hz
  obtain ⟨r, hr, hrp⟩ := h.root
  constructor
  · exact ⟨r, by rw [update_of_ne hroot.symm, hr], hrp⟩
  · intro d' j hj
    exact h.unnamed d' j (hnames.mp hj)
  · intro j z hz hne
    obtain ⟨l, hl⟩ := h.named j z (hdir hz) hne
    exact ⟨l, hnames.mpr hl⟩
  · intro j z d1 k1 d2 k2 hz h1 h2
    exact h.once j z d1 k1 d2 k2 (hdir hz) (hnames.mp h1) (hnames.mp h2)
  · intro j z hz
    exact (h.reach j z (hdir hz)).congr fun _ _ _ => hnames.mpr

end Tree

/-- How often a directory refers to `i`: as its parent and by its slots. -/
def Node.refs (x : Node ν) (i : ν) : Nat :=
  (if x.parent = i then 1 else 0) + x.slots.count (some i)

/-- References to `i` from the directories in `S`. -/
def refs (S : Finset ν) (t : ν → Option (Node ν)) (i : ν) : Nat :=
  ∑ d ∈ S, ((t d).map (·.refs i)).getD 0

variable {S : Finset ν}

theorem refs_update (hd : d ∈ S) (y : Option (Node ν)) (i : ν) :
    refs S (update t d y) i + ((t d).map (·.refs i)).getD 0 =
      refs S t i + (y.map (·.refs i)).getD 0 := by
  have h1 := add_sum_erase S (fun j => ((update t d y j).map (·.refs i)).getD 0) hd
  have h2 := add_sum_erase S (fun j => ((t j).map (·.refs i)).getD 0) hd
  have h3 : ∑ j ∈ S.erase d, ((update t d y j).map (·.refs i)).getD 0 =
      ∑ j ∈ S.erase d, ((t j).map (·.refs i)).getD 0 := by
    apply sum_congr rfl
    intro j hj
    rw [update_of_ne (ne_of_mem_erase hj)]
  simp only [update_self] at h1
  unfold refs
  omega

theorem refs_put (hS : d ∈ S) (hd : t d = some x) (hk : k ≤ x.slots.length) (i : ν) :
    refs S (update t d (some (x.put k o))) i + (if x.slots[k]? = some (some i) then 1 else 0) =
      refs S t i + (if o = some i then 1 else 0) := by
  have h1 := refs_update (t := t) hS (some (x.put k o)) i
  have h2 := count_putAt hk o (some i)
  simp only [hd, map_some, getD_some, Node.refs, Node.put] at h1
  unfold Node.put
  omega

theorem refs_pos_of (hS : d ∈ S) (hd : t d = some x) (hx : 0 < x.refs i) : 0 < refs S t i := by
  have h := single_le_sum (f := fun j => ((t j).map (·.refs i)).getD 0)
    (fun _ _ => Nat.zero_le _) hS
  simp only [hd, map_some, getD_some] at h
  unfold refs
  omega

theorem Names.refs_pos (hn : Names t d k i) (hS : d ∈ S) : 0 < refs S t i := by
  obtain ⟨x, hx, hk⟩ := hn
  apply refs_pos_of hS hx
  have := count_pos_iff.mpr (mem_of_getElem? hk)
  unfold Node.refs
  omega

theorem exists_of_refs_pos (h : 0 < refs S t i) :
    (∃ d k, Names t d k i) ∨ ∃ d x, t d = some x ∧ x.parent = i := by
  obtain ⟨d, -, hd⟩ := exists_ne_zero_of_sum_ne_zero h.ne'
  cases hx : t d with
  | none => simp [hx] at hd
  | some x =>
    simp only [hx, map_some, getD_some, Node.refs] at hd
    by_cases hp : x.parent = i
    · exact .inr ⟨d, x, hx, hp⟩
    · rw [if_neg hp, Nat.zero_add] at hd
      obtain ⟨k, hk⟩ := getElem?_of_mem (count_pos_iff.mp (Nat.pos_of_ne_zero hd))
      exact .inl ⟨d, k, x, hx, hk⟩

theorem Tree.refs_pos (h : Tree top t) (hS : ∀ d x, t d = some x → d ∈ S) (hd : t d = some x) :
    0 < refs S t d := by
  by_cases hr : d = top
  · obtain ⟨y, hy, hp⟩ := h.root
    apply refs_pos_of (hS top y hy) hy
    unfold Node.refs
    rw [if_pos (hp.trans hr.symm)]
    omega
  · obtain ⟨k, hk⟩ := h.named d x hd hr
    obtain ⟨y, hy⟩ := h.parent_dir hd
    exact hk.refs_pos (hS _ y hy)

theorem refs_of_empty (hy : ∀ o ∈ y.slots, o = none) (j : ν) :
    y.refs j = if y.parent = j then 1 else 0 := by
  have : y.slots.count (some j) = 0 := by
    apply count_eq_zero.mpr
    intro hj
    cases hy _ hj
  unfold Node.refs
  omega

/-- A directory without names is referred to once, by its name in its parent. -/
theorem Tree.refs_eq_one (h : Tree top t) (hS : ∀ d x, t d = some x → d ∈ S) (hi : t i = some y)
    (hn : Names t d k i) (hnone : ∀ k j, ¬ Names t i k j) : refs S t i = 1 := by
  have htop : i ≠ top := by
    intro heq
    rw [heq] at hn
    exact h.unnamed d k hn
  obtain ⟨x, hx, hslot⟩ := hn
  have hk : k ≤ x.slots.length := by
    obtain ⟨hlt, -⟩ := List.getElem?_eq_some_iff.mp hslot
    exact hlt.le
  have hput := refs_put (o := none) (hS d x hx) hx hk i
  rw [if_pos hslot, if_neg (by simp)] at hput
  -- Once the name is gone nothing is left that refers to `i`.
  suffices hzero : ¬ 0 < refs S (update t d (some (x.put k none))) i by omega
  intro hpos
  rcases exists_of_refs_pos hpos with ⟨d', k', hn'⟩ | ⟨d', x', hx', hp⟩
  · rw [names_put hx hk] at hn'
    split_ifs at hn' with heq
    obtain ⟨rfl, rfl⟩ := h.once i y d' k' d k hi hn' ⟨x, hx, hslot⟩
    exact heq ⟨rfl, rfl⟩
  have hparent : ∃ z, t d' = some z ∧ z.parent = i := by
    by_cases hd' : d' = d
    · subst hd'
      rw [update_self] at hx'
      cases hx'
      exact ⟨x, hx, hp⟩
    · rw [update_of_ne hd'] at hx'
      exact ⟨x', hx', hp⟩
  obtain ⟨z, hz, hzp⟩ := hparent
  exact h.parent_ne htop hnone hz hzp

theorem Tree.reach_of_refs (h : Tree top t) (hi : 0 < refs S t i) : Reach t top i := by
  rcases exists_of_refs_pos hi with ⟨d, k, x, hx, hk⟩ | ⟨d, x, hx, hp⟩
  · exact .name (h.reach d x hx) ⟨x, hx, hk⟩
  · obtain ⟨y, hy⟩ := h.parent_dir hx
    rw [← hp]
    exact h.reach _ y hy

end NameTree
