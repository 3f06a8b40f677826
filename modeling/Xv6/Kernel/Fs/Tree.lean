import Xv6.Framework.NameTree
import Xv6.Kernel.Fs.Abstract

namespace Xv6.Fs

open ByteCodec NameTree Function Option Finset

def Dirent.target (de : Dirent) : Option Nat := if de.inum = 0 then none else some de.inum.toNat

variable {i : Nat}

theorem Dirent.target_eq_some {de : Dirent} :
    de.target = some i ↔ de.inum ≠ 0 ∧ de.inum.toNat = i := by
  unfold target
  split_ifs with h <;> simp [h]

theorem Dirent.target_zero : Dirent.zero.target = none := rfl

variable {n : Nat}

theorem toNat_ofNat16 (h : i < n) (hn : n ≤ 2 ^ 16) : (UInt16.ofNat i).toNat = i := by
  rw [UInt16.toNat_ofNat', Nat.mod_eq_of_lt (h.trans_le hn)]

theorem ofNat16_ne_zero (hpos : 0 < i) (h : i < n) (hn : n ≤ 2 ^ 16) : UInt16.ofNat i ≠ 0 := by
  intro h0
  have := toNat_ofNat16 h hn
  rw [h0] at this
  exact hpos.ne this

theorem strncmp_takeWhile (n : Nat) (p q : List UInt8)
    (h : ∀ j, j < n → q.getD j 0 = (p.takeWhile (· ≠ 0)).getD j 0) : strncmp n p q = 0 := by
  induction n generalizing p q with
  | zero => rfl
  | succ n ih =>
    have hhead := h 0 (Nat.succ_pos n)
    unfold strncmp
    cases p with
    | nil =>
      rw [if_neg (by simp)]
      cases q with
      | nil => rfl
      | cons b q =>
        have hb : b = 0 := by simpa using hhead
        simp [hb]
    | cons a p =>
      by_cases ha : a = 0
      · subst ha
        rw [if_neg (by simp)]
        cases q with
        | nil => rfl
        | cons b q =>
          have hb : b = 0 := by simpa using hhead
          simp [hb]
      have hq : q.headD 0 = a := by
        cases q with
        | nil | cons => simpa [ha] using hhead
      rw [if_pos ⟨ha, hq.symm⟩]
      apply ih
      intro j hj
      have hnext := h (j + 1) (by omega)
      cases q with
      | nil | cons => simpa [ha] using hnext

theorem namecmp_strncpy (name : List UInt8) : namecmp name (strncpy name) = 0 := by
  apply strncmp_takeWhile
  intro j hj
  simp [strncpy, hj]

namespace View

def Live (v : View) : Prop := v.type = T_DIR ∧ 0 < v.nlink

instance (v : View) : Decidable v.Live := inferInstanceAs (Decidable (_ ∧ _))

/-- The entries of a directory: itself, its parent, and files under other names. -/
structure Dots (v : View) (d : Nat) : Prop where
  two : 2 ≤ v.nents
  self : v.entry 0 = ⟨UInt16.ofNat d, dot⟩
  parent : (v.entry 1).inum ≠ 0 ∧ (v.entry 1).name = dotdot
  rest : ∀ k, 2 ≤ k → k < v.nents → (v.entry k).inum ≠ 0 →
    (v.entry k).name ≠ dot ∧ (v.entry k).name ≠ dotdot

def node (v : View) : Node Nat :=
  ⟨(v.entry 1).inum.toNat, (v.entries.drop 2).map Dirent.target⟩

variable {v : View} {d k : Nat} {de : Dirent}

theorem entries_getElem? (v : View) (k : Nat) :
    v.entries[k]? = if k < v.nents then some (v.entry k) else none := by
  unfold entries
  rw [List.getElem?_map]
  split_ifs with h
  · rw [List.getElem?_range h]
    rfl
  · rw [List.getElem?_eq_none (by simpa using h)]
    rfl

theorem slots_getElem? (v : View) (k : Nat) :
    v.node.slots[k]? = if k + 2 < v.nents then some (v.entry (k + 2)).target else none := by
  unfold node
  rw [List.getElem?_map, List.getElem?_drop, Nat.add_comm 2 k, entries_getElem?]
  split_ifs <;> rfl

theorem slots_length (v : View) : v.node.slots.length = v.nents - 2 := by
  simp [node, entries]

/-- Entry `k` exists, or can be added. -/
def Writable (v : View) (k : Nat) : Prop := k < v.nents ∨ v.Vacant k

theorem nents_setEntry_writable (h : v.Writable k) :
    (v.setEntry k de).nents = max v.nents (k + 1) := by
  cases h with
  | inl h =>
    rw [nents_setEntry h]
    omega
  | inr h =>
    obtain ⟨hsize, hle, -⟩ := h
    unfold nents at *
    rw [setEntry_size]
    omega

theorem Writable.le (h : v.Writable k) : k ≤ v.nents := by
  cases h with
  | inl h => exact h.le
  | inr h => exact h.2.1

theorem node_setEntry (h : v.Writable k) (hk : 2 ≤ k) :
    (v.setEntry k de).node = v.node.put (k - 2) de.target := by
  have hle := h.le
  have hparent : (v.setEntry k de).entry 1 = v.entry 1 := entry_setEntry_of_ne (by omega)
  have hslots : (v.setEntry k de).node.slots = putAt v.node.slots (k - 2) de.target := by
    apply List.ext_getElem?
    intro j
    rw [getElem?_putAt (by rw [slots_length]; omega), slots_getElem?, slots_getElem?,
      nents_setEntry_writable h]
    by_cases hj : j = k - 2
    · have hjk : j + 2 = k := by omega
      rw [if_pos (by omega), if_pos hj, hjk, entry_setEntry_self]
    · rw [if_neg hj, entry_setEntry_of_ne (by omega)]
      split_ifs with h1 h2 h2 <;> first | rfl | omega
  unfold Node.put
  rw [← hslots]
  unfold node
  rw [hparent]

namespace Dots

variable (h : v.Dots d)
include h

theorem setEntry (hw : v.Writable k) (hk : 2 ≤ k)
    (hde : de.inum ≠ 0 → de.name ≠ dot ∧ de.name ≠ dotdot) : (v.setEntry k de).Dots d where
  two := by
    have := h.two
    rw [nents_setEntry_writable hw]
    omega
  self := by
    rw [entry_setEntry_of_ne (by omega)]
    exact h.self
  parent := by
    rw [entry_setEntry_of_ne (by omega)]
    exact h.parent
  rest l hl hlt hne := by
    by_cases hlk : l = k
    · subst hlk
      rw [entry_setEntry_self] at hne ⊢
      exact hde hne
    · rw [entry_setEntry_of_ne hlk] at hne ⊢
      rw [nents_setEntry_writable hw] at hlt
      have := hw.le
      exact h.rest l hl (by omega) hne

theorem withNlink (x : Int16) : ({ v with nlink := x } : View).Dots d :=
  ⟨h.two, h.self, h.parent, h.rest⟩

theorem self_ne (hpos : 0 < d) (hlt : d < n) (hn : n ≤ 2 ^ 16) : (v.entry 0).inum ≠ 0 := by
  rw [h.self]
  exact ofNat16_ne_zero hpos hlt hn

theorem vacant_ge (hself : (v.entry 0).inum ≠ 0) (hk : v.Vacant k) : 2 ≤ k := by
  have htwo := h.two
  have hparent := h.parent.1
  by_contra hlt
  have hfree := hk.2.2 (by omega)
  have hcases : k = 0 ∨ k = 1 := by omega
  cases hcases with
  | inl hk0 =>
    subst hk0
    exact hself hfree
  | inr hk1 =>
    subst hk1
    exact hparent hfree

theorem named_ge (hname : (v.entry k).name ≠ dot ∧ (v.entry k).name ≠ dotdot) : 2 ≤ k := by
  by_contra hlt
  have hcases : k = 0 ∨ k = 1 := by omega
  cases hcases with
  | inl hk =>
    subst hk
    rw [h.self] at hname
    exact hname.1 rfl
  | inr hk =>
    subst hk
    exact hname.2 h.parent.2

theorem name_ne (hself : (v.entry 0).inum ≠ 0) {name : List UInt8} (hl : v.Lacks name) :
    strncpy name ≠ dot ∧ strncpy name ≠ dotdot := by
  have htwo := h.two
  constructor
  · intro heq
    apply hl 0 (by omega) hself
    rw [h.self, ← heq]
    exact namecmp_strncpy name
  · intro heq
    apply hl 1 (by omega) h.parent.1
    rw [h.parent.2, ← heq]
    exact namecmp_strncpy name

end Dots

end View

/-- What a file contributes to the tree of directories. -/
def liveNode (o : Option View) : Option (Node Nat) := o.bind fun v => if v.Live then some v.node else none

def liveDirs (files : Nat → Option View) : Nat → Option (Node Nat) := liveNode ∘ files

def nlinkOf (o : Option View) : Int := (o.map fun v => v.nlink.toInt).getD 0

theorem liveNode_live {v : View} (h : v.Live) : liveNode (some v) = some v.node := if_pos h

theorem liveNode_dead {v : View} (h : ¬ v.Live) : liveNode (some v) = none := if_neg h

theorem liveDirs_eq_some {files : Nat → Option View} {d : Nat} {x : Node Nat} :
    liveDirs files d = some x ↔ ∃ v, files d = some v ∧ v.Live ∧ v.node = x := by
  unfold liveDirs liveNode
  rw [comp_apply, bind_eq_some_iff]
  constructor
  · rintro ⟨v, hv, hx⟩
    by_cases hlive : v.Live
    · rw [if_pos hlive] at hx
      exact ⟨v, hv, hlive, some.inj hx⟩
    · rw [if_neg hlive] at hx
      cases hx
  · rintro ⟨v, hv, hlive, rfl⟩
    exact ⟨v, hv, if_pos hlive⟩

theorem liveDirs_update (files : Nat → Option View) (i : Nat) (o : Option View) :
    liveDirs (update files i o) = update (liveDirs files) i (liveNode o) :=
  comp_update ..

/-- The directories with links form a tree, and nothing is left in directories without links. -/
structure Shaped (n : Nat) (files : Nat → Option View) : Prop where
  bound : ∀ i v, files i = some v → 0 < i ∧ i < n
  tree : NameTree.Tree ROOTINO (liveDirs files)
  dots : ∀ d v, files d = some v → v.Live → v.Dots d
  dead : ∀ d v, files d = some v → v.type = T_DIR → ¬ v.Live → ∀ k, k < v.nents →
    (v.entry k).Nameless

/-- Besides, link counts are right, and the directories freed so far held no files. -/
structure Rooted (n : Nat) (a : Abs) : Prop extends Shaped n a.files where
  count : ∀ j, 0 < j → nlinkOf (a.files j) =
    refs (Finset.range n) (liveDirs a.files) j + if a.extra = some j then 1 else 0
  extra : ∀ i, a.extra = some i → ∃ v, a.files i = some v ∧ v.type ≠ T_DIR
  freed : ∀ l ∈ a.freed, ∀ de ∈ l, de.Nameless

theorem Int16.pos_iff (x : Int16) : 0 < x ↔ 0 < x.toInt := by
  rw [Int16.lt_iff_toInt_lt]
  rfl

theorem Int16.not_lt_one (x : Int16) : ¬ x < 1 ↔ 0 < x := by
  rw [Int16.pos_iff, Int16.lt_iff_toInt_lt]
  change ¬ x.toInt < 1 ↔ _
  omega

theorem Int16.toInt_succ {x : Int16} (h : x ≠ 32767) : (x + 1).toInt = x.toInt + 1 := by
  have hne : x.toInt ≠ 32767 := fun hx => h (Int16.toInt_inj.mp hx)
  have hlt := x.toInt_lt
  have hle := x.le_toInt
  rw [Int16.toInt_add]
  change (x.toInt + 1).bmod (2 ^ 16) = _
  apply Int.bmod_eq_of_le <;> omega

theorem Int16.toInt_pred {x : Int16} (h : 0 < x.toInt) : (x - 1).toInt = x.toInt - 1 := by
  have hlt := x.toInt_lt
  rw [Int16.toInt_sub]
  change (x.toInt - 1).bmod (2 ^ 16) = _
  apply Int.bmod_eq_of_le <;> omega

section Rooted

variable {n : Nat} {a b : Abs} {files : Nat → Option View} {i d k : Nat} {v dv : View}

theorem liveDirs_none (hi : ∀ v, files i = some v → v.type ≠ T_DIR) : liveDirs files i = none := by
  change liveNode (files i) = none
  cases hv : files i with
  | none => rfl
  | some v => exact liveNode_dead fun hl => hi v hv hl.1

namespace Shaped

/-- A file that is no live directory changes to another such file. -/
theorem liveDirs_same (hi : liveNode (files i) = none) {o : Option View} (ho : liveNode o = none) :
    liveDirs (update files i o) = liveDirs files := by
  rw [liveDirs_update, ho, update_eq_self_iff]
  exact hi.symm

section

variable (h : Shaped n files)
include h

theorem set (hpos : 0 < i) (hlt : i < n)
    (htree : NameTree.Tree ROOTINO (liveDirs (update files i (some v)))) (hdots : v.Live → v.Dots i)
    (hdead : v.type = T_DIR → ¬ v.Live → ∀ k, k < v.nents → (v.entry k).Nameless) :
    Shaped n (update files i (some v)) := by
  constructor
  · intro j w hw
    by_cases hj : j = i
    · subst hj
      exact ⟨hpos, hlt⟩
    · rw [update_of_ne hj] at hw
      exact h.bound j w hw
  · exact htree
  · intro j w hw hlive
    by_cases hj : j = i
    · subst hj
      rw [update_self] at hw
      cases hw
      exact hdots hlive
    · rw [update_of_ne hj] at hw
      exact h.dots j w hw hlive
  intro j w hw hdir hlive
  by_cases hj : j = i
  · subst hj
    rw [update_self] at hw
    cases hw
    exact hdead hdir hlive
  · rw [update_of_ne hj] at hw
    exact h.dead j w hw hdir hlive

theorem setFile (hpos : 0 < i) (hlt : i < n) (hi : liveNode (files i) = none)
    (htype : v.type ≠ T_DIR) : Shaped n (update files i (some v)) := by
  have hlive : ¬ v.Live := fun hl => htype hl.1
  refine h.set hpos hlt ?_ (fun hl => absurd hl hlive) fun hdir => absurd hdir htype
  rw [liveDirs_same hi (liveNode_dead hlive)]
  exact h.tree

theorem self_ne (hn : n ≤ 2 ^ 16) (hd : files d = some dv) (hlive : dv.Live) :
    (dv.entry 0).inum ≠ 0 :=
  (h.dots d dv hd hlive).self_ne (h.bound d dv hd).1 (h.bound d dv hd).2 hn

variable (hd : files d = some dv) (hlive : dv.Live) (hw : dv.Writable k) (hk : 2 ≤ k)
include hd hlive hw hk

/-- An entry of a live directory is written; neither the old nor the new one refers to a live
directory. -/
theorem setEntry {de : Dirent}
    (hold : ∀ j, k < dv.nents → (dv.entry k).target = some j → liveDirs files j = none)
    (hnew : ∀ j, de.target = some j → liveDirs files j = none)
    (hde : de.inum ≠ 0 → de.name ≠ dot ∧ de.name ≠ dotdot) {w : View} (hwlive : w.Live)
    (hnode : w.node = (dv.setEntry k de).node) (hdots : (dv.setEntry k de).Dots d → w.Dots d) :
    Shaped n (update files d (some w)) := by
  obtain ⟨hpos, hlt⟩ := h.bound d dv hd
  have hx : liveDirs files d = some dv.node := liveDirs_eq_some.mpr ⟨dv, hd, hlive, rfl⟩
  have hle := hw.le
  refine h.set hpos hlt ?_ (fun _ => hdots ((h.dots d dv hd hlive).setEntry hw hk hde))
    fun _ hl => absurd hwlive hl
  rw [liveDirs_update, liveNode_live hwlive, hnode, View.node_setEntry hw hk]
  apply h.tree.put hx
  · rw [View.slots_length]
    omega
  · rintro j ⟨x, hx', hs⟩
    rw [hx] at hx'
    cases hx'
    rw [View.slots_getElem?, Nat.sub_add_cancel hk] at hs
    split_ifs at hs with hlt
    exact hold j hlt (some.inj hs)
  · exact hnew

omit hd hlive hw hk in
theorem mem_range {x : Node Nat} (hd : liveDirs files d = some x) : d ∈ range n := by
  obtain ⟨v, hv, -⟩ := liveDirs_eq_some.mp hd
  exact Finset.mem_range.mpr (h.bound d v hv).2

theorem refs_setEntry (de : Dirent) {w : View} (hwlive : w.Live)
    (hnode : w.node = (dv.setEntry k de).node) (j : Nat) :
    refs (range n) (liveDirs (update files d (some w))) j +
        (if k < dv.nents ∧ (dv.entry k).target = some j then 1 else 0) =
      refs (range n) (liveDirs files) j + if de.target = some j then 1 else 0 := by
  have hx : liveDirs files d = some dv.node := liveDirs_eq_some.mpr ⟨dv, hd, hlive, rfl⟩
  have hle := hw.le
  have hput := refs_put (o := de.target) (h.mem_range hx) hx
    (k := k - 2) (by rw [View.slots_length]; omega) j
  rw [liveDirs_update, liveNode_live hwlive, hnode, View.node_setEntry hw hk, ← hput,
    View.slots_getElem?, Nat.sub_add_cancel hk]
  by_cases hlt : k < dv.nents
  · simp [hlt]
  · simp [hlt]

end

end Shaped

namespace Rooted

variable (h : Rooted n a)
include h

/-- The link count of an inode is what refers to it. -/
theorem refs_absent (hpos : 0 < i) (hi : a.files i = none) :
    refs (range n) (liveDirs a.files) i = 0 := by
  have hc := h.count i hpos
  rw [hi] at hc
  change (0 : Int) = _ at hc
  split_ifs at hc <;> omega

theorem nlink_eq (hi : a.files i = some v) :
    v.nlink.toInt = refs (range n) (liveDirs a.files) i +
      if a.extra = some i then 1 else 0 := by
  have hc := h.count i (h.bound i v hi).1
  rw [hi] at hc
  exact hc

theorem live_of_named (hd : a.files d = some dv) (hdir : dv.type = T_DIR) (hk : k < dv.nents)
    (hne : (dv.entry k).inum ≠ 0) (hname : (dv.entry k).name ≠ dot ∧ (dv.entry k).name ≠ dotdot) :
    dv.Live := by
  by_contra hlive
  rcases h.dead d dv hd hdir hlive k hk with h0 | h0 | h0
  · exact hne h0
  · exact hname.1 h0
  · exact hname.2 h0

theorem not_extra (hi : ∀ v, a.files i = some v → v.type = T_DIR) : a.extra ≠ some i := by
  intro hx
  obtain ⟨v, hv, htype⟩ := h.extra i hx
  exact htype (hi v hv)

end Rooted

/-- An image whose only directory is the root, where every file has one link. -/
theorem Rooted.flat (hroot : files ROOTINO = some v) (hlive : v.Live) (hone : v.nlink = 1)
    (hdots : v.Dots ROOTINO) (hn : ROOTINO < n) (hparent : v.node.parent = ROOTINO)
    (hfile : ∀ i w, i ≠ ROOTINO → files i = some w → (0 < i ∧ i < n) ∧ w.type ≠ T_DIR ∧ w.nlink = 1)
    (hslots : ∀ j, 0 < j → v.node.slots.count (some j) =
      if j ≠ ROOTINO ∧ (files j).isSome then 1 else 0) :
    Rooted n ⟨files, [], none, false, false⟩ := by
  have hother : ∀ d, d ≠ ROOTINO → liveDirs files d = none := by
    intro d hd
    exact liveDirs_none fun w hw => (hfile d w hd hw).2.1
  have hx : liveDirs files ROOTINO = some v.node := liveDirs_eq_some.mpr ⟨v, hroot, hlive, rfl⟩
  have hrefs : ∀ j, refs (range n) (liveDirs files) j = v.node.refs j := by
    intro j
    unfold refs
    rw [sum_eq_single ROOTINO]
    · rw [hx]
      rfl
    · intro d _ hd
      rw [hother d hd]
      rfl
    · intro hd
      exact absurd (Finset.mem_range.mpr hn) hd
  refine ⟨⟨?_, NameTree.Tree.single hother hx hparent ?_, ?_, ?_⟩, ?_, ?_, ?_⟩
  · intro i w hi
    by_cases hir : i = ROOTINO
    · subst hir
      exact ⟨by decide, hn⟩
    · exact (hfile i w hir hi).1
  · rw [← List.count_pos_iff, hslots _ (by decide), if_neg (by simp)]
    exact Nat.lt_irrefl 0
  · intro d w hd hlive'
    by_cases hdr : d = ROOTINO
    · subst hdr
      cases hroot.symm.trans hd
      exact hdots
    · exact absurd hlive'.1 (hfile d w hdr hd).2.1
  · intro d w hd hdir hdead
    by_cases hdr : d = ROOTINO
    · subst hdr
      cases hroot.symm.trans hd
      exact absurd hlive hdead
    · exact absurd hdir (hfile d w hdr hd).2.1
  · intro j hj
    have hnone : (none : Option Nat) ≠ some j := by simp
    change nlinkOf (files j) = _ + if none = some j then 1 else 0
    rw [hrefs, Node.refs, hparent, hslots j hj, if_neg hnone]
    by_cases hjr : j = ROOTINO
    · subst hjr
      rw [hroot, if_pos rfl, if_neg (by simp)]
      change v.nlink.toInt = _
      rw [hone]
      rfl
    rw [if_neg (Ne.symm hjr)]
    cases hf : files j with
    | none =>
      rw [if_neg (by simp)]
      rfl
    | some w =>
      rw [if_pos ⟨hjr, rfl⟩]
      change w.nlink.toInt = _
      rw [(hfile j w hjr hf).2.2]
      rfl
  · intro i hi
    cases hi
  · intro l hl
    cases hl

/-- Every entry that names a file names an existing one, and is counted by it. -/
theorem Rooted.named_pos (h : Rooted n a) (hd : a.files d = some dv) (hdir : dv.type = T_DIR)
    (hk : k < dv.nents) (hname : ¬ (dv.entry k).Nameless) :
    ∃ v, a.files (dv.entry k).inum.toNat = some v ∧ 0 < v.nlink := by
  have hne : (dv.entry k).inum ≠ 0 := fun h0 => hname (.inl h0)
  have hplain : (dv.entry k).name ≠ dot ∧ (dv.entry k).name ≠ dotdot :=
    ⟨fun h0 => hname (.inr (.inl h0)), fun h0 => hname (.inr (.inr h0))⟩
  have hlive := h.live_of_named hd hdir hk hne hplain
  have hk2 := (h.dots d dv hd hlive).named_ge hplain
  have hnames : Names (liveDirs a.files) d (k - 2) (dv.entry k).inum.toNat := by
    refine ⟨dv.node, liveDirs_eq_some.mpr ⟨dv, hd, hlive, rfl⟩, ?_⟩
    rw [View.slots_getElem?, Nat.sub_add_cancel hk2, if_pos hk,
      (Dirent.target_eq_some.mpr ⟨hne, rfl⟩ : (dv.entry k).target = _)]
  have hpos := hnames.refs_pos (Finset.mem_range.mpr (h.bound d dv hd).2)
  have hi0 : 0 < (dv.entry k).inum.toNat := by
    apply Nat.pos_of_ne_zero
    intro h0
    exact hne (UInt16.toNat_inj.mp h0)
  cases hi : a.files (dv.entry k).inum.toNat with
  | none =>
    rw [h.refs_absent hi0 hi] at hpos
    exact absurd hpos (Nat.lt_irrefl 0)
  | some v =>
    refine ⟨v, rfl, ?_⟩
    have hlink := h.nlink_eq hi
    rw [Int16.pos_iff, hlink]
    split_ifs <;> omega

theorem Rooted.counted (h : Rooted n a) : Counted a.files := by
  intro d dv k v hd hdir hk hname hv
  obtain ⟨w, hw, hpos⟩ := h.named_pos hd hdir hk hname
  rw [hv] at hw
  cases hw
  exact (Int16.not_lt_one _).mpr hpos

/-- Every inode with links is reachable from the root. -/
theorem Rooted.reach (h : Rooted n a) (hex : a.extra = none) (hi : a.files i = some v)
    (hpos : 0 < v.nlink) : Reach (liveDirs a.files) ROOTINO i := by
  apply h.tree.reach_of_refs (S := range n)
  have hlink := h.nlink_eq hi
  have := (Int16.pos_iff _).mp hpos
  rw [hex, if_neg (by simp)] at hlink
  omega

end Rooted

end Xv6.Fs
