import Xv6.Kernel.Fs.Consistency
import Xv6.Kernel.Fs.TreeStep

namespace Xv6.Fs

open ByteCodec Hoare Transition NameTree List Option

/-- Entry `k` of the live directory `d` names `i`. -/
def EntryNames (files : Nat → Option View) (d k i : Nat) : Prop :=
  ∃ v, files d = some v ∧ v.Live ∧ k < v.nents ∧ ¬ (v.entry k).Nameless ∧
    (v.entry k).inum.toNat = i

/-- Entries of a live directory that refer to `i` under a name other than ".". -/
def View.entryCount (v : View) (i : Nat) : Nat :=
  if v.Live then v.entries.countP fun de => de.inum.toNat = i ∧ de.name ≠ dot else 0

/-- All such entries of the live directories among `n` inodes. -/
def entryCount (n : Nat) (files : Nat → Option View) (i : Nat) : Nat :=
  ∑ d ∈ Finset.range n, ((files d).map (·.entryCount i)).getD 0

/-- Reachable from the root by entries of live directories. -/
def Reachable (files : Nat → Option View) (i : Nat) : Prop :=
  Relation.ReflTransGen (fun d i => ∃ k, EntryNames files d k i) ROOTINO i

/-- Link counts are right, and the live directories form a tree. -/
structure LinkTree (n : Nat) (files : Nat → Option View) : Prop where
  count : ∀ i v, files i = some v → v.nlink.toInt = entryCount n files i
  dots : ∀ d v, files d = some v → v.Live →
    2 ≤ v.nents ∧ v.entry 0 = ⟨UInt16.ofNat d, dot⟩ ∧ (v.entry 1).name = dotdot
  root : ∃ v, files ROOTINO = some v ∧ v.Live ∧ (v.entry 1).inum.toNat = ROOTINO ∧
    ∀ d k, ¬ EntryNames files d k ROOTINO
  named : ∀ d v, files d = some v → v.Live → d ≠ ROOTINO →
    (∃! x : Nat × Nat, EntryNames files x.1 x.2 d) ∧
      ∃ k, EntryNames files (v.entry 1).inum.toNat k d
  reached : ∀ d v, files d = some v → v.Live → Reachable files d

section Rooted

variable {n : Nat} {a : Abs} {files : Nat → Option View} {i d k : Nat} {v : View}

theorem Shaped.entryNames_iff (h : Shaped n files) :
    EntryNames files d k i ↔ 2 ≤ k ∧ Names (liveDirs files) d (k - 2) i := by
  constructor
  · rintro ⟨v, hv, hlive, hk, hname, hi⟩
    have hplain : (v.entry k).name ≠ dot ∧ (v.entry k).name ≠ dotdot :=
      ⟨fun h0 => hname (.inr (.inl h0)), fun h0 => hname (.inr (.inr h0))⟩
    have hk2 := (h.dots d v hv hlive).named_ge hplain
    refine ⟨hk2, v.node, liveDirs_eq_some.mpr ⟨v, hv, hlive, rfl⟩, ?_⟩
    rw [View.slots_getElem?, Nat.sub_add_cancel hk2, if_pos hk]
    exact congrArg some (Dirent.target_eq_some.mpr ⟨fun h0 => hname (.inl h0), hi⟩)
  rintro ⟨hk2, x, hx, hs⟩
  obtain ⟨v, hv, hlive, rfl⟩ := liveDirs_eq_some.mp hx
  rw [View.slots_getElem?, Nat.sub_add_cancel hk2] at hs
  split_ifs at hs with hk
  obtain ⟨hne, hi⟩ := Dirent.target_eq_some.mp (some.inj hs)
  obtain ⟨hdot, hdotdot⟩ := (h.dots d v hv hlive).rest k hk2 hk hne
  refine ⟨v, hv, hlive, hk, ?_, hi⟩
  rintro (h0 | h0 | h0)
  · exact hne h0
  · exact hdot h0
  · exact hdotdot h0

theorem Shaped.entryNames_of_names (h : Shaped n files) (hn : Names (liveDirs files) d k i) :
    EntryNames files d (k + 2) i :=
  h.entryNames_iff.mpr ⟨by omega, hn⟩

/-- The entries of a directory with "." and ".." split off. -/
theorem View.Dots.entries_eq (h : v.Dots d) :
    v.entries = v.entry 0 :: v.entry 1 :: v.entries.drop 2 := by
  have htwo := h.two
  have hlen : v.entries.length = v.nents := by simp [View.entries]
  have h0 := View.entries_getElem? v 0
  have h1 := View.entries_getElem? v 1
  rw [if_pos (by omega)] at h0 h1
  have hlt : 1 < v.entries.length := by omega
  rw [getElem?_eq_getElem (by omega), some.injEq] at h0 h1
  rw [← h0, ← h1, ← drop_eq_getElem_cons hlt, getElem_cons_drop]
  rfl

theorem View.Dots.count_eq (h : v.Dots d) (hi : 0 < i) :
    (v.entries.countP fun de => de.inum.toNat = i ∧ de.name ≠ dot) = v.node.refs i := by
  have hdotdot : dotdot ≠ dot := by decide
  have hrest : ((v.entries.drop 2).countP fun de => de.inum.toNat = i ∧ de.name ≠ dot) =
      v.node.slots.count (some i) := by
    unfold View.node List.count
    rw [countP_map]
    apply countP_congr
    intro de hde
    obtain ⟨k, hk⟩ := getElem?_of_mem hde
    rw [getElem?_drop, View.entries_getElem?] at hk
    split_ifs at hk with hlt
    cases hk
    have hplain := h.rest (2 + k) (by omega) hlt
    simp only [Function.comp_apply, beq_iff_eq, decide_eq_true_eq]
    rw [Dirent.target_eq_some]
    constructor
    · rintro ⟨rfl, -⟩
      refine ⟨fun h0 => ?_, rfl⟩
      rw [h0] at hi
      exact absurd hi (Nat.lt_irrefl 0)
    · rintro ⟨hne, rfl⟩
      exact ⟨rfl, (hplain hne).1⟩
  rw [h.entries_eq, countP_cons, countP_cons, hrest]
  unfold Node.refs View.node
  have h0 : ¬ ((v.entry 0).inum.toNat = i ∧ (v.entry 0).name ≠ dot) := by
    rw [h.self]
    simp
  have h1 : ((v.entry 1).inum.toNat = i ∧ (v.entry 1).name ≠ dot) ↔ (v.entry 1).inum.toNat = i := by
    rw [h.parent.2]
    simp [hdotdot]
  simp only [h0, h1, decide_false, Bool.false_eq_true, if_false, decide_eq_true_eq]
  omega

theorem Shaped.entryCount_eq (h : Shaped n files) (hi : 0 < i) :
    entryCount n files i = refs (Finset.range n) (liveDirs files) i := by
  apply Finset.sum_congr rfl
  intro d _
  unfold liveDirs liveNode
  rw [Function.comp_apply]
  cases hd : files d with
  | none => rfl
  | some v =>
    simp only [map_some, getD_some, bind_some, View.entryCount]
    split_ifs with hlive
    · rw [(h.dots d v hd hlive).count_eq hi]
      rfl
    · rfl

theorem Shaped.reachable (h : Shaped n files) (hr : Reach (liveDirs files) ROOTINO i) :
    Reachable files i := by
  induction hr with
  | root => exact .refl
  | name _ hn ih => exact ih.tail ⟨_, h.entryNames_of_names hn⟩

theorem Rooted.linkTree (h : Rooted n a) (hex : a.extra = none) : LinkTree n a.files where
  count i v hi := by
    rw [h.nlink_eq hi, hex, if_neg (by simp), h.entryCount_eq (h.bound i v hi).1, Int.add_zero]
  dots d v hd hlive :=
    have hdots := h.dots d v hd hlive
    ⟨hdots.two, hdots.self, hdots.parent.2⟩
  root := by
    obtain ⟨x, hx, hp⟩ := h.tree.root
    obtain ⟨v, hv, hlive, rfl⟩ := liveDirs_eq_some.mp hx
    refine ⟨v, hv, hlive, hp, fun d k hn => ?_⟩
    exact h.tree.unnamed d _ (h.entryNames_iff.mp hn).2
  named d v hd hlive hroot := by
    have hx : liveDirs a.files d = some v.node := liveDirs_eq_some.mpr ⟨v, hd, hlive, rfl⟩
    obtain ⟨k, hk⟩ := h.tree.named d v.node hx hroot
    have hn := h.entryNames_of_names hk
    refine ⟨⟨(v.node.parent, k + 2), hn, ?_⟩, k + 2, hn⟩
    rintro ⟨d', k'⟩ hn'
    obtain ⟨hk2, hn'⟩ := h.entryNames_iff.mp hn'
    obtain ⟨rfl, hkk⟩ := h.tree.once d v.node _ _ _ _ hx hn' hk
    have : k' = k + 2 := by
      simp only at hk2
      omega
    rw [this]
  reached d v hd hlive :=
    h.toShaped.reachable (h.tree.reach d v.node (liveDirs_eq_some.mpr ⟨v, hd, hlive, rfl⟩))

end Rooted

/-- A consistent image whose directories form a tree with the right link counts. -/
structure TreeImage (sb : Superblock) (d : Disk) : Prop extends Consistent sb d where
  whole : WholeEntries sb d
  inums : sb.ninodes ≤ 2 ^ 16
  rooted : Rooted sb.ninodes ⟨files sb d (dinodeAt sb d), [], none, false, false⟩

/-- So far entries were added to live directories only, and no link count has wrapped. -/
def State.Regular (s : State) : Prop := s.hist.deadParent = false ∧ s.hist.linkMax = false

instance (s : State) : Decidable s.Regular := inferInstanceAs (Decidable (_ ∧ _))

section Runs

variable {sb : Superblock} {d : Disk} {calls : List (Fin NPROC × Call)} {s : State}

variable (h : TreeImage sb d) (hrun : Run (Step sb) (boot d) calls s)
include h hrun

theorem TreeImage.sound : Sound sb (.image True) (boot d) s :=
  run_sound (boot_sysInv h.toConsistent fun _ => h.whole) hrun

theorem TreeImage.run (hreg : s.Regular) : Rooted sb.ninodes (s.abs sb none) :=
  (h.sound hrun).steps.rooted h.rooted h.inums hreg

end Runs

theorem demoImage_tree : TreeImage Mkfs.sb demoImage where
  toConsistent := demoImage_consistent
  whole := demoImage_wholeEntries
  inums := by decide
  rooted := by
    have hroot : files Mkfs.sb demoImage (dinodeAt Mkfs.sb demoImage) ROOTINO =
        some (view demoImage (demoInode T_DIR 48 46)) :=
      files_eq_some.mpr ⟨(demo_allocated ..).mpr (.inl rfl), congrArg (view demoImage) (demo_root ..)⟩
    have hslots : (view demoImage (demoInode T_DIR 48 46)).node.slots = [some 2] := by
      decide +kernel
    refine Rooted.flat hroot (by decide) rfl ?_ (by decide) (by decide +kernel) ?_ ?_
    · refine ⟨by decide, Dirent.ext (by decide +kernel) (by decide +kernel), by decide +kernel, ?_⟩
      intro k hk2 hk _
      have hnents : (view demoImage (demoInode T_DIR 48 46)).nents = 3 := by decide
      have hk : k = 2 := by omega
      subst hk
      decide +kernel
    · intro i w hi hw
      obtain ⟨hal, rfl⟩ := files_eq_some.mp hw
      have hcases := (demo_allocated ..).mp hal
      cases hcases with
      | inl h1 => exact absurd h1 hi
      | inr h2 =>
        subst h2
        unfold demoImage
        rw [demo_file]
        exact ⟨by decide, by decide, rfl⟩
    intro j hj
    have hal : (files Mkfs.sb demoImage (dinodeAt Mkfs.sb demoImage) j).isSome = true ↔
        j = 1 ∨ j = 2 := by
      refine Iff.trans ?_ (demo_allocated 48 rootEnts 47 48 (fun _ => 0) j)
      change _ ↔ Allocated Mkfs.sb (dinodeAt Mkfs.sb demoImage) j
      unfold files
      split_ifs with h <;> simpa using h
    simp only [hslots, hal]
    unfold ROOTINO
    by_cases h2 : j = 2
    · subst h2
      rfl
    · rw [if_neg (by omega), count_singleton, if_neg]
      simpa using Ne.symm h2

theorem demo_regular : ∃ s, Run (Step Mkfs.sb) (boot demoImage) demoCalls s ∧ s.Regular := by
  have hexec : (exec (call Mkfs.sb) (boot demoImage) demoCalls).map (fun s => decide s.Regular) =
      some true := by decide +kernel
  obtain ⟨s, hs, hval⟩ := Option.map_eq_some_iff.mp hexec
  exact ⟨s, run_of_exec _ _ _ _ hs, of_decide_eq_true hval⟩

/-- A directory is removed while it is the current directory, a file is made in it, and the
directory is left. -/
def orphanCalls : List (Fin NPROC × Call) :=
  [(p0, .mkdir [97, 0]), (p0, .chdir [97, 0]), (p0, .unlink [46, 46, 47, 97, 0]),
    (p0, .open [120, 0] (O_CREATE ||| O_RDWR)), (p0, .chdir [47, 0])]

/-- No directory of the disk has an entry for `i`. -/
def Unnamed (sb : Superblock) (d : Disk) (i : Nat) : Prop :=
  ∀ j v, files sb d (dinodeAt sb d) j = some v → v.type = T_DIR → ∀ k, k < v.nents →
    (v.entry k).inum.toNat ≠ i

def unnamed (sb : Superblock) (d : Disk) (i : Nat) : Bool :=
  (List.range sb.ninodes).all fun j => (files sb d (dinodeAt sb d) j).elim true fun v =>
    decide (v.type = T_DIR → ∀ k, k < v.nents → (v.entry k).inum.toNat ≠ i)

variable {sb : Superblock} {d : Disk} {i : Nat}

theorem Unnamed.of_eq (h : unnamed sb d i) : Unnamed sb d i := by
  intro j v hv
  have hj : j < sb.ninodes := (files_eq_some.mp hv).1.1
  have hall := all_eq_true.mp h j (mem_range.mpr hj)
  rw [hv] at hall
  exact of_decide_eq_true hall

theorem Unnamed.not_reachable (h : Unnamed sb d i)
    (hi : i ≠ ROOTINO) : ¬ Reachable (files sb d (dinodeAt sb d)) i := by
  intro hr
  rcases Relation.ReflTransGen.cases_tail hr with heq | ⟨j, -, k, v, hv, hlive, hk, -, hki⟩
  · exact hi heq
  · exact h j v hv hlive.1 k hk hki

/-- No file is orphaned. After any run of system calls in which entries are added to live
directories only and no link count of 32767 is incremented, the directories freed so far held
nothing but "." and "..", and every inode with links is reachable from the root. -/
theorem removed_directories_are_empty (sb : Superblock) (d : Disk) (h : TreeImage sb d)
    (calls : List (Fin NPROC × Call)) (s : State) (hrun : Run (Step sb) (boot d) calls s)
    (hreg : s.Regular) :
    (∀ l ∈ s.hist.freedDirs, ∀ de ∈ l, de.Nameless) ∧
    ∀ i v, s.files sb i = some v → 0 < v.nlink → Reachable (s.files sb) i := by
  have hrooted := h.run hrun hreg
  refine ⟨hrooted.freed, fun i v hi hpos => ?_⟩
  exact hrooted.toShaped.reachable (hrooted.reach rfl hi hpos)

theorem removed_directory_orphans_file : TreeImage Mkfs.sb demoImage ∧
    ∃ s, Run (Step Mkfs.sb) (boot demoImage) orphanCalls s ∧
      (∃ l ∈ s.hist.freedDirs, ∃ de ∈ l, ¬ de.Nameless) ∧
      (dinodeAt Mkfs.sb s.disk 4).type ≠ 0 ∧ 0 < (dinodeAt Mkfs.sb s.disk 4).nlink ∧
      ¬ Reachable (s.files Mkfs.sb) 4 := by
  have hexec : (exec (call Mkfs.sb) (boot demoImage) orphanCalls).map (fun s =>
      (decide (∃ l ∈ s.hist.freedDirs, ∃ de ∈ l, ¬ de.Nameless),
        (dinodeAt Mkfs.sb s.disk 4).type, (dinodeAt Mkfs.sb s.disk 4).nlink,
          unnamed Mkfs.sb s.disk 4)) = some (true, 2, 1, true) := by
    decide +kernel
  obtain ⟨s, hs, hval⟩ := Option.map_eq_some_iff.mp hexec
  simp only [Prod.mk.injEq] at hval
  obtain ⟨hfreed, htype, hlink, hnone⟩ := hval
  refine ⟨demoImage_tree, s, run_of_exec _ _ _ _ hs, of_decide_eq_true hfreed, ?_, ?_,
    (Unnamed.of_eq hnone).not_reachable (by decide)⟩
  · rw [htype]
    decide
  · rw [hlink]
    decide

theorem removed_directories_are_empty_demo :
    ∃ s, Run (Step Mkfs.sb) (boot demoImage) demoCalls s ∧
      (∀ l ∈ s.hist.freedDirs, ∀ de ∈ l, de.Nameless) ∧
      ∀ i v, s.files Mkfs.sb i = some v → 0 < v.nlink → Reachable (s.files Mkfs.sb) i := by
  obtain ⟨s, hrun, hreg⟩ := demo_regular
  exact ⟨s, hrun, removed_directories_are_empty Mkfs.sb demoImage demoImage_tree demoCalls s hrun
    hreg⟩

/-- An entry of a directory that is reachable from the root refers to `i`. -/
def ReachablyNamed (files : Nat → Option View) (i : Nat) : Prop :=
  ∃ d v k, Reachable files d ∧ files d = some v ∧ k < v.nents ∧ (v.entry k).inum.toNat = i

theorem Rooted.reachablyNamed {n : Nat} {a : Abs} {v : View} (h : Rooted n a)
    (hn : n ≤ 2 ^ 16) (hex : a.extra = none) (hi : a.files i = some v) (hlink : v.nlink ≠ 0) :
    ReachablyNamed a.files i := by
  have hpos : 0 < v.nlink := by
    have hcount := h.nlink_eq hi
    rw [hex, if_neg (by simp)] at hcount
    rw [Int16.pos_iff]
    have hne : v.nlink.toInt ≠ 0 := fun h0 => hlink (Int16.toInt_inj.mp h0)
    omega
  have hreach := h.toShaped.reachable (h.reach hex hi hpos)
  rcases Relation.ReflTransGen.cases_tail hreach with heq | ⟨d, hd, k, w, hw, -, hk, -, hki⟩
  · subst heq
    obtain ⟨w, hw, hlive, -⟩ := (h.linkTree hex).root
    obtain ⟨htwo, hself, -⟩ := (h.linkTree hex).dots _ w hw hlive
    refine ⟨ROOTINO, w, 0, .refl, hw, by omega, ?_⟩
    rw [hself]
    exact toNat_ofNat16 (h.bound _ w hw).2 hn
  · exact ⟨d, w, k, hd, hw, hk, hki⟩

theorem TreeImage.recovered (h : TreeImage sb d)
    {calls : List (Fin NPROC × Call)} {s : State} (hrun : Run (Step sb) (boot d) calls s)
    (hreg : s.Regular) {r : Disk} (hr : r ∈ s.hist.commits) :
    Img sb r (dinodeAt sb r) ∧ ∃ a : Abs, Rooted sb.ninodes a ∧ a.extra = none ∧
      a.files = files sb r (dinodeAt sb r) := by
  rcases (h.sound hrun).commits r hr with hboot | ⟨m, rfl, himg, hto, hfrom⟩
  · cases mem_singleton.mp hboot
    exact ⟨h.img, _, h.rooted, rfl, rfl⟩
  · exact ⟨himg, _, hto.rooted h.rooted h.inums (hfrom.regular hreg), rfl, rfl⟩

def unlinkOpenCalls : List (Fin NPROC × Call) :=
  [(p0, .open [102, 0] O_RDWR), (p0, .unlink [102, 0])]

/-- The machine boots from the disk `d`, runs regular system calls and crashes, and recovery leaves
`r`. -/
def Life (sb : Superblock) (d : Disk) (calls : List (Fin NPROC × Call)) (r : Disk) : Prop :=
  ∃ s, Run (Step sb) (boot d) calls s ∧ s.Regular ∧ r ∈ s.hist.commits

theorem TreeImage.crash {r : Disk} {calls : List (Fin NPROC × Call)} (h : TreeImage sb d)
    (hl : Life sb d calls r) : TreeImage sb r := by
  obtain ⟨s, hrun, hreg, hr⟩ := hl
  obtain ⟨himg, a, hrooted, hex, hfiles⟩ := h.recovered hrun hreg hr
  have hdirs : Dirs sb.ninodes True (files sb r (dinodeAt sb r)) := by
    have hboot : Dirs sb.ninodes True (files sb d (dinodeAt sb d)) :=
      fun i v hi hdir => ⟨h.entries i v hi hdir, fun _ => h.whole i v hi hdir⟩
    rcases (h.sound hrun).commits r hr with hd | ⟨m, rfl, -, hto, -⟩
    · cases mem_singleton.mp hd
      exact hboot
    · exact hto.dirs hboot (Nat.zero_lt_of_lt sb.root_lt)
  refine ⟨.of_img himg fun i v hi hdir => (hdirs i v hi hdir).1,
    fun i v hi hdir => (hdirs i v hi hdir).2 trivial, h.inums, ?_⟩
  rw [← hfiles]
  exact ⟨hrooted.toShaped, fun j hj => by rw [hrooted.count j hj, hex], nofun, nofun⟩

end Xv6.Fs
