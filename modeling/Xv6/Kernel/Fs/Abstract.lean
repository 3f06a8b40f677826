import Xv6.Kernel.Fs.BlockMap

namespace Xv6.Fs

open ByteCodec Function

namespace View

def nents (v : View) : Nat := v.size / 16

def entry (v : View) (k : Nat) : Dirent := dirent.get (v.data (k / 64)) (k % 64)

def entries (v : View) : List Dirent := (List.range v.nents).map v.entry

/-- The directory with entry `k` written. -/
def setEntry (v : View) (k : Nat) (de : Dirent) : View :=
  { v with
    size := max v.size (16 * k + 16)
    data := update v.data (k / 64) (dirent.put (v.data (k / 64)) (k % 64) de) }

variable {v : View} {k : Nat} {de : Dirent}

theorem setEntry_data : (v.setEntry k de).data =
    update v.data (k / 64) (dirent.put (v.data (k / 64)) (k % 64) de) := rfl

theorem setEntry_size : (v.setEntry k de).size = max v.size (16 * k + 16) := rfl

@[simp] theorem entry_setEntry_self : (v.setEntry k de).entry k = de := by
  rw [entry, setEntry_data, update_self]
  apply Codec.get_put_self
  have : k % 64 < 64 := Nat.mod_lt _ (by decide)
  simp only [BSIZE]
  omega

theorem entry_setEntry_of_ne {l : Nat} (h : l ≠ k) : (v.setEntry k de).entry l = v.entry l := by
  rw [entry, setEntry_data, entry]
  by_cases hb : l / 64 = k / 64
  · rw [hb, update_self]
    apply Codec.get_put_of_ne
    omega
  · rw [update_of_ne hb]

theorem nents_setEntry (h : k < v.nents) : (v.setEntry k de).nents = v.nents := by
  unfold nents at *
  rw [setEntry_size]
  omega

theorem nents_setEntry_le (h : k ≤ v.nents) : (v.setEntry k de).nents ≤ max v.nents (k + 1) := by
  unfold nents at *
  rw [setEntry_size]
  omega

/-- No entry in use has this name. -/
def Lacks (v : View) (name : List UInt8) : Prop :=
  ∀ k, k < v.nents → (v.entry k).inum ≠ 0 → namecmp name (v.entry k).name ≠ 0

/-- Entry `k` can be written to add a name: it is free, or the directory ends there. -/
def Vacant (v : View) (k : Nat) : Prop :=
  v.size % 16 = 0 ∧ k ≤ v.nents ∧ (k < v.nents → (v.entry k).inum = 0)

end View

def dot : Fin DIRSIZ → UInt8 := strncpy [46]

def dotdot : Fin DIRSIZ → UInt8 := strncpy [46, 46]

/-- An entry that does not name a file: a free one, "." or "..". -/
def Dirent.Nameless (de : Dirent) : Prop := de.inum = 0 ∨ de.name = dot ∨ de.name = dotdot

instance (de : Dirent) : Decidable de.Nameless := inferInstanceAs (Decidable (_ ∨ _ ∨ _))

/-- A new file as `create` initializes it. -/
def View.fresh (type major minor : Int16) : View := ⟨type, major, minor, 1, 0, fun _ _ => 0⟩

/-- The file system as a whole: the files by inode number, the entries of the directories freed so
far, the inode whose link count stands for a link that is not made yet, whether an entry was ever
added to a directory without links, and whether a link count of 32767 was ever incremented. -/
structure Abs where
  files : Nat → Option View
  freed : List (List Dirent)
  extra : Option Nat
  dead : Bool
  maxed : Bool

def Abs.set (a : Abs) (i : Nat) (v : Option View) : Abs :=
  { a with files := update a.files i v }

@[simp] theorem Abs.set_files_self (a : Abs) (i : Nat) (v : Option View) :
    (a.set i v).files i = v := update_self ..

variable {i : Nat}

theorem Abs.set_files_of_ne (a : Abs) {j : Nat} (h : j ≠ i) (v : Option View) :
    (a.set i v).files j = a.files j := update_of_ne h ..

/-- An entry is added to a directory with these attributes. -/
def Abs.noteParent (a : Abs) (dv : View) : Abs := { a with dead := a.dead || decide (dv.nlink < 1) }

def Abs.noteLink (a : Abs) (v : View) : Abs :=
  { a with maxed := a.maxed || decide (v.nlink = 32767) }

/-- An inode without links loses its last reference. -/
def Abs.reap (a : Abs) (i : Nat) (v : View) : Abs :=
  { a with
    files := update a.files i none
    freed := if v.type = T_DIR then a.freed ++ [v.entries] else a.freed }

/-- What the system calls do to the files, for `n` inodes. -/
inductive AbsStep (n : Nat) (a : Abs) : Abs → Prop
  | reap {i : Nat} {v : View} (hi : a.files i = some v) (hlink : v.nlink = 0) :
      AbsStep n a (a.reap i v)
  | write {i : Nat} {v : View} (size : Nat) (data : Nat → Block) (hi : a.files i = some v)
      (htype : v.type ≠ T_DIR) :
      AbsStep n a (a.set i (some { v with size := size, data := data }))
  | orphan {i : Nat} {v : View} (hpos : 0 < i) (hlt : i < n) (hi : a.files i = none)
      (hlink : v.nlink = 0)
      (hdots : v.type = T_DIR → v.size % 16 = 0 ∧
        ∀ k, k < v.nents → (v.entry k).inum.toNat < n ∧ (v.entry k).Nameless) :
      AbsStep n a (a.set i (some v))
  | create {d i k : Nat} {dv : View} {name : List UInt8} {type : Int16} (major minor : Int16)
      (hd : a.files d = some dv) (hdir : dv.type = T_DIR) (hpos : 0 < i) (hlt : i < n)
      (hi : a.files i = none) (htype : type ≠ T_DIR) (hk : dv.Vacant k) (hname : dv.Lacks name) :
      AbsStep n a (((a.noteParent dv).set i (some (.fresh type major minor))).set d
        (some (dv.setEntry k ⟨UInt16.ofNat i, strncpy name⟩)))
  | mkdir {d i k l : Nat} {dv v : View} {name : List UInt8} {major minor : Int16}
      (hd : a.files d = some dv) (hdir : dv.type = T_DIR) (hdn : d < n) (hpos : 0 < i) (hlt : i < n)
      (hi : a.files i = none)
      (hv : v = (View.fresh T_DIR major minor).setEntry 0 ⟨UInt16.ofNat i, dot⟩)
      (hl : v.Vacant l) (hk : dv.Vacant k) (hname : dv.Lacks name) :
      AbsStep n a ((((a.noteParent dv).noteLink dv).set i
          (some (v.setEntry l ⟨UInt16.ofNat d, dotdot⟩))).set d
        (some { dv.setEntry k ⟨UInt16.ofNat i, strncpy name⟩ with nlink := dv.nlink + 1 }))
  | linkBegin {i : Nat} {v : View} (hex : a.extra = none) (hi : a.files i = some v)
      (htype : v.type ≠ T_DIR) :
      AbsStep n a { (a.noteLink v).set i (some { v with nlink := v.nlink + 1 }) with
        extra := some i }
  | linkEnd {d i k : Nat} {dv : View} {name : List UInt8} (hex : a.extra = some i) (hlt : i < n)
      (hd : a.files d = some dv) (hdir : dv.type = T_DIR) (hk : dv.Vacant k)
      (hname : dv.Lacks name) :
      AbsStep n a { (a.noteParent dv).set d
        (some (dv.setEntry k ⟨UInt16.ofNat i, strncpy name⟩)) with extra := none }
  | linkUndo {i : Nat} {v : View} (hex : a.extra = some i) (hi : a.files i = some v) :
      AbsStep n a { a.set i (some { v with nlink := v.nlink - 1 }) with extra := none }
  | unlinkFile {d k i : Nat} {dv v : View} (hd : a.files d = some dv) (hdir : dv.type = T_DIR)
      (hk : k < dv.nents) (hne : (dv.entry k).inum ≠ 0) (hki : (dv.entry k).inum.toNat = i)
      (hname : (dv.entry k).name ≠ dot ∧ (dv.entry k).name ≠ dotdot) (hi : a.files i = some v)
      (hdi : d ≠ i) (htype : v.type ≠ T_DIR) (hlink : ¬ v.nlink < 1) :
      AbsStep n a ((a.set d (some (dv.setEntry k .zero))).set i
        (some { v with nlink := v.nlink - 1 }))
  | unlinkDir {d k i : Nat} {dv v : View} (hd : a.files d = some dv) (hdir : dv.type = T_DIR)
      (hk : k < dv.nents) (hne : (dv.entry k).inum ≠ 0) (hki : (dv.entry k).inum.toNat = i)
      (hname : (dv.entry k).name ≠ dot ∧ (dv.entry k).name ≠ dotdot) (hi : a.files i = some v)
      (hdi : d ≠ i) (htype : v.type = T_DIR) (hlink : ¬ v.nlink < 1)
      (hempty : ∀ l, 2 ≤ l → l < v.nents → (v.entry l).inum = 0) :
      AbsStep n a ((a.set d
          (some { dv.setEntry k .zero with nlink := dv.nlink - 1 })).set i
        (some { v with nlink := v.nlink - 1 }))

def AbsSteps (n : Nat) : Abs → Abs → Prop := Relation.ReflTransGen (AbsStep n)

/-- Every entry of the directory names an inode the disk has, and, if `al`, the directory holds
whole entries. -/
def View.DirOk (n : Nat) (al : Prop) (v : View) : Prop :=
  (∀ k, k < v.nents → (v.entry k).inum.toNat < n) ∧ (al → v.size % 16 = 0)

def Dirs (n : Nat) (al : Prop) (files : Nat → Option View) : Prop :=
  ∀ i v, files i = some v → v.type = T_DIR → v.DirOk n al

/-- Every entry that names a file is counted in the file's link count. -/
def Counted (files : Nat → Option View) : Prop :=
  ∀ d dv k v, files d = some dv → dv.type = T_DIR → k < dv.nents → ¬ (dv.entry k).Nameless →
    files (dv.entry k).inum.toNat = some v → ¬ v.nlink < 1

section Dirs

variable {n : Nat} {al : Prop} {a b : Abs}

theorem Dirs.set (h : Dirs n al a.files) {v : Option View}
    (hv : ∀ w, v = some w → w.type = T_DIR → w.DirOk n al) : Dirs n al (a.set i v).files := by
  intro j w hj hw
  by_cases hji : j = i
  · subst hji
    rw [Abs.set_files_self] at hj
    exact hv w hj hw
  · rw [Abs.set_files_of_ne a hji] at hj
    exact h j w hj hw

theorem View.DirOk.setEntry {dv : View} {k : Nat} {de : Dirent} (h : dv.DirOk n al)
    (hk : k < dv.nents ∨ dv.Vacant k) (hde : de.inum.toNat < n) :
    (dv.setEntry k de).DirOk n al := by
  constructor
  · intro l hl
    by_cases hlk : l = k
    · subst hlk
      rw [View.entry_setEntry_self]
      exact hde
    rw [View.entry_setEntry_of_ne hlk]
    apply h.1
    cases hk with
    | inl hk =>
      rw [View.nents_setEntry hk] at hl
      exact hl
    | inr hk =>
      have hle := hk.2.1
      have : (dv.setEntry k de).nents ≤ max dv.nents (k + 1) := View.nents_setEntry_le hle
      omega
  · intro hal
    have := h.2 hal
    rw [View.setEntry_size]
    omega

theorem ofNat_lt (h : i < n) : (UInt16.ofNat i).toNat < n := by
  rw [UInt16.toNat_ofNat']
  exact (Nat.mod_le _ _).trans_lt h

section

variable (type major minor : Int16)

theorem fresh_nents : (View.fresh type major minor).nents = 0 := by
  simp [View.nents, View.fresh]

theorem fresh_vacant : (View.fresh type major minor).Vacant 0 :=
  ⟨rfl, Nat.zero_le _, fun hk => by rw [fresh_nents] at hk; exact absurd hk (Nat.lt_irrefl 0)⟩

theorem fresh_dirOk : (View.fresh type major minor).DirOk n al := by
  refine ⟨fun k hk => ?_, fun _ => rfl⟩
  rw [fresh_nents] at hk
  exact absurd hk (Nat.not_lt_zero k)

end

theorem AbsStep.dirs (hs : AbsStep n a b) (h : Dirs n al a.files) (hn : 0 < n) :
    Dirs n al b.files := by
  cases hs with
  | reap hi hlink => exact Dirs.set (v := none) h (by simp)
  | write size data hi htype =>
    apply h.set
    intro w hw hdir
    cases hw
    exact absurd hdir htype
  | orphan hpos hlt hi hlink hdots =>
    apply h.set
    intro w hw hdir
    cases hw
    exact ⟨fun k hk => ((hdots hdir).2 k hk).1, fun _ => (hdots hdir).1⟩
  | create major minor hd hdir hpos hlt hi htype hk hname =>
    apply Dirs.set
    · apply Dirs.set (a := a.noteParent _) h
      intro w hw hdir
      cases hw
      exact absurd hdir htype
    · intro w hw _
      cases hw
      exact (h _ _ hd hdir).setEntry (.inr hk) (ofNat_lt hlt)
  | mkdir hd hdir hdn hpos hlt hi hv hl hk hname =>
    apply Dirs.set
    · apply Dirs.set (a := (a.noteParent _).noteLink _) h
      intro w hw _
      cases hw
      apply View.DirOk.setEntry _ (.inr hl) (ofNat_lt hdn)
      rw [hv]
      exact (fresh_dirOk ..).setEntry (.inr (fresh_vacant ..)) (ofNat_lt hlt)
    · intro w hw _
      cases hw
      exact (h _ _ hd hdir).setEntry (.inr hk) (ofNat_lt hlt)
  | linkBegin hex hi htype =>
    apply Dirs.set (a := a.noteLink _) h
    intro w hw hdir
    cases hw
    exact absurd hdir htype
  | linkEnd hex hlt hd hdir hk hname =>
    apply Dirs.set (a := a.noteParent _) h
    intro w hw _
    cases hw
    exact (h _ _ hd hdir).setEntry (.inr hk) (ofNat_lt hlt)
  | linkUndo hex hi =>
    apply h.set
    intro w hw hdir
    cases hw
    have hv := h _ _ hi hdir
    exact hv
  | unlinkFile hd hdir hk hne hki hname hi hdi htype hlink =>
    apply Dirs.set
    · apply h.set
      intro w hw _
      cases hw
      exact (h _ _ hd hdir).setEntry (.inl hk) hn
    · intro w hw hdir
      cases hw
      exact absurd hdir htype
  | unlinkDir hd hdir hk hne hki hname hi hdi htype hlink hempty =>
    apply Dirs.set
    · apply h.set
      intro w hw _
      cases hw
      exact (h _ _ hd hdir).setEntry (.inl hk) hn
    · intro w hw hdir
      cases hw
      have hv := h _ _ hi hdir
      exact hv

theorem AbsSteps.dirs (hs : AbsSteps n a b) (h : Dirs n al a.files) (hn : 0 < n) :
    Dirs n al b.files := by
  induction hs with
  | refl => exact h
  | tail _ hs ih => exact hs.dirs ih hn

end Dirs

end Xv6.Fs
