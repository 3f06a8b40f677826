import Xv6.Mkfs.Image

namespace Xv6.Mkfs

open ByteCodec Hoare Fs Function List

/-- The entries of a directory are the list, followed by free entries. -/
structure Lists (v : View) (l : List Dirent) : Prop where
  size : v.size = 16 * l.length
  entry : ∀ k, v.entry k = l.getD k .zero

variable {v : View}

theorem Lists.append {l : List Dirent} (h : Lists v l) (de : Dirent) :
    Lists (v.setEntry l.length de) (l ++ [de]) where
  size := by
    rw [View.setEntry_size, h.size, length_append, length_singleton]
    omega
  entry k := by
    by_cases hk : k = l.length
    · subst hk
      simp
    · rw [View.entry_setEntry_of_ne hk, h.entry]
      by_cases hlt : k < l.length
      · rw [getD_append _ _ _ _ hlt]
      · rw [getD_eq_default _ _ (by omega), getD_eq_default _ _ (by simp; omega)]

/-- The entries of the root directory once the files with these names are added. -/
def rootEntries (names : List (List UInt8)) : List Dirent :=
  ⟨1, dot⟩ :: ⟨1, dotdot⟩ ::
    names.mapIdx fun j name => ⟨UInt16.ofNat (j + 2), strncpy name⟩

theorem length_rootEntries (names : List (List UInt8)) :
    (rootEntries names).length = names.length + 2 := by
  simp [rootEntries]

theorem rootEntries_append (names : List (List UInt8)) (name : List UInt8) :
    rootEntries (names ++ [name]) =
      rootEntries names ++ [⟨UInt16.ofNat (names.length + 2), strncpy name⟩] := by
  simp [rootEntries, mapIdx_append]

/-- A file made from the command line. -/
def View.Plain (v : View) : Prop := v.type = T_FILE ∧ v.nlink = 1

/-- The image once the files with these names are added. -/
structure Progress (s : State) (names : List (List UInt8)) : Prop where
  made : Made s
  freeinode : s.freeinode = names.length + 2
  root : ∃ v, filesOf s ROOTINO = some v ∧ v.type = T_DIR ∧ v.nlink = 1 ∧
    Lists v (rootEntries names)
  plain : ∀ i, 2 ≤ i → i < names.length + 2 → ∃ v, filesOf s i = some v ∧ View.Plain v
  rest : ∀ i, i = 0 ∨ names.length + 2 ≤ i → filesOf s i = none

namespace Input

def bytes (file : Input) : List UInt8 := (file.contents.getD []).flatten

def blocks (file : Input) : Nat := blocksFor file.bytes.length

/-- No assertion about the file itself fails. -/
def Fits (file : Input) : Prop :=
  slash ∉ shortname file.argv ∧ file.contents.isSome ∧ (filename file.argv).length ≤ DIRSIZ ∧
    (file.contents.getD []).flatten.length ≤ MAXFILE * BSIZE

instance (file : Input) : Decidable file.Fits := inferInstanceAs (Decidable (_ ∧ _ ∧ _ ∧ _))

end Input

/-- The blocks of an image with these files: the meta blocks, the root directory and the files. -/
def blocksUsed (files : List Input) : Nat :=
  nmeta + blocksFor (16 * (files.length + 2)) + (files.map Input.blocks).sum

theorem blocksUsed_append (files more : List Input) :
    blocksUsed files ≤ blocksUsed (files ++ more) := by
  have hroot : blocksFor (16 * (files.length + 2)) ≤ blocksFor (16 * ((files ++ more).length + 2)) :=
    blocksFor_mono (by rw [length_append]; omega)
  unfold blocksUsed
  rw [map_append, sum_append]
  omega

/-- The files added so far, block by block and byte by byte. -/
structure Stored (s : State) (files : List Input) : Prop where
  freeblock : s.freeblock = blocksUsed files
  bytes : ∀ k file, files[k]? = some file → ∃ v, filesOf s (k + 2) = some v ∧
    v.size = file.bytes.length ∧ Starts v.data file.bytes

variable {s s' : State} {i : Nat} {room : Prop} {names : List (List UInt8)}

theorem appendAll_spec (h : Made s) (hv : filesOf s i = some v) {l : List UInt8}
    (hl : Starts v.data l) (hlen : l.length = v.size) (bufs : List (List UInt8)) (hroom : room →
      s.freeblock + blocksFor (v.size + bufs.flatten.length) ≤ FSSIZE + blocksFor v.size ∧
      v.size + bufs.flatten.length ≤ MAXFILE * BSIZE) :
    Wp (Unless room) (appendAll i bufs) s fun _ s' => Made s' ∧ s'.freeinode = s.freeinode ∧
      s'.freeblock + blocksFor v.size = s.freeblock + blocksFor (v.size + bufs.flatten.length) ∧
      ∃ data, Starts data (l ++ bufs.flatten) ∧ filesOf s' = update (filesOf s) i
        (some { v with size := v.size + bufs.flatten.length, data := data }) := by
  induction bufs generalizing s v l with
  | nil =>
    rw [appendAll, wp_pure, flatten_nil, append_nil]
    refine ⟨h, rfl, rfl, v.data, hl, ?_⟩
    rw [eq_comm, update_eq_self_iff]
    exact hv.symm
  | cons buf bufs ih =>
    rw [flatten_cons, length_append, ← Nat.add_assoc] at hroom ⊢
    have hmono : blocksFor (v.size + buf.length) ≤
        blocksFor (v.size + buf.length + bufs.flatten.length) := blocksFor_mono (by omega)
    rw [appendAll]
    refine (iappend_spec h hv hl hlen buf ?_).bind ?_
    · intro hr
      have := hroom hr
      omega
    rintro _ s1 ⟨hmade, hfi, hfb, data, hdata, hfiles⟩
    have hv1 : filesOf s1 i = some { v with size := v.size + buf.length, data := data } := by
      rw [hfiles, update_self]
    have hlen1 : (l ++ buf).length = v.size + buf.length := by rw [length_append, hlen]
    refine (ih hmade hv1 hdata hlen1 ?_).mono ?_
    · intro hr
      have := hroom hr
      simp only
      omega
    · rintro _ s' ⟨hmade', hfi', hfb', data', hdata', hfiles'⟩
      simp only at hfb' hfiles'
      rw [append_assoc] at hdata'
      refine ⟨hmade', hfi'.trans hfi, by omega, data', hdata', ?_⟩
      rw [hfiles', hfiles, update_idem]

theorem Progress.add (h : Progress s names) {name : List UInt8} (hmade : Made s')
    (hfi : s'.freeinode = names.length + 3) {w : View} (hw : View.Plain w)
    (hdir : v.type = T_DIR) (hlink : v.nlink = 1) (hlists : Lists v (rootEntries names))
    (hfiles : filesOf s' = update (update (filesOf s) ROOTINO
      (some (v.setEntry (names.length + 2) ⟨UInt16.ofNat (names.length + 2), strncpy name⟩)))
        (names.length + 2) (some w)) : Progress s' (names ++ [name]) := by
  have hlength : (names ++ [name]).length = names.length + 1 := by simp
  have hne : ROOTINO ≠ names.length + 2 := by
    unfold ROOTINO
    omega
  have hother : ∀ i, i ≠ names.length + 2 → i ≠ ROOTINO → filesOf s' i = filesOf s i := by
    intro i hi hir
    rw [hfiles, update_of_ne hi, update_of_ne hir]
  refine ⟨hmade, by omega, ?_, ?_, ?_⟩
  · have happ := hlists.append ⟨UInt16.ofNat (names.length + 2), strncpy name⟩
    rw [length_rootEntries, ← rootEntries_append] at happ
    refine ⟨v.setEntry (names.length + 2) _, ?_, hdir, hlink, happ⟩
    rw [hfiles, update_of_ne hne, update_self]
  · intro i hlo hhi
    by_cases hi : i = names.length + 2
    · exact ⟨w, by rw [hi, hfiles, update_self], hw⟩
    · rw [hother i hi (by unfold ROOTINO; omega)]
      exact h.plain i hlo (by omega)
  · intro i hout
    rw [hother i (by omega) (by unfold ROOTINO; omega)]
    exact h.rest i (by omega)

variable {done : List Input}

theorem Stored.add {file : Input} (h : Stored s done) {w : View}
    (hfb : s'.freeblock = blocksUsed (done ++ [file])) (hsize : w.size = file.bytes.length)
    (hw : Starts w.data file.bytes)
    (hfiles : filesOf s' = update (update (filesOf s) ROOTINO (some v))
      (done.length + 2) (some w)) : Stored s' (done ++ [file]) where
  freeblock := hfb
  bytes k f hf := by
    by_cases hk : k = done.length
    · have hf : file = f := by simpa [hk] using hf
      subst hf
      exact ⟨w, by rw [hfiles, hk, update_self], hsize, hw⟩
    have hlt : k < done.length := by
      have := List.getElem?_eq_some_iff.mp hf
      obtain ⟨hlt, -⟩ := this
      rw [length_append, length_singleton] at hlt
      omega
    rw [getElem?_append_left hlt] at hf
    rw [hfiles, update_of_ne (by omega), update_of_ne (by unfold ROOTINO; omega)]
    exact h.bytes k f hf

section

variable (h : Progress s (done.map fun file => filename file.argv)) (hst : Stored s done)
include h hst

theorem addFile_spec (hlt : done.length + 2 < NINODES) (file : Input)
    (hroom : room → file.Fits ∧ blocksUsed (done ++ [file]) ≤ FSSIZE) :
    Wp (Unless room) (addFile ROOTINO file) s fun _ s' =>
      Progress s' ((done ++ [file]).map fun file => filename file.argv) ∧
        Stored s' (done ++ [file]) := by
  unfold addFile
  by_cases hslash : slash ∈ shortname file.argv
  · rw [if_pos hslash]
    exact fun hr => (hroom hr).1.1 hslash
  rw [if_neg hslash]
  cases hc : file.contents with
  | none =>
    intro hr
    have := (hroom hr).1.2.1
    rw [hc] at this
    cases this
  | some bufs =>
    have hbytes : file.bytes = bufs.flatten := by rw [Input.bytes, hc, Option.getD_some]
    have hused : blocksUsed (done ++ [file]) + blocksFor (16 * (done.length + 2)) =
        s.freeblock + blocksFor (16 * (done.length + 2) + 16) + blocksFor bufs.flatten.length := by
      rw [hst.freeblock, ← hbytes]
      unfold blocksUsed Input.blocks
      simp only [length_append, map_append, sum_append, length_singleton,
        map_cons, map_nil, sum_singleton]
      have : 16 * (done.length + 2) + 16 = 16 * (done.length + 1 + 2) := by omega
      rw [this]
      omega
    by_cases hlen : (filename file.argv).length ≤ DIRSIZ
    · simp only [if_pos hlen]
      obtain ⟨v, hroot, hdir, hlink, hlists⟩ := h.root
      have hfi := h.freeinode
      have hsize := hlists.size
      rw [length_map] at hfi
      rw [length_rootEntries, length_map] at hsize
      have hne : ROOTINO ≠ done.length + 2 := by
        unfold ROOTINO
        omega
      have hrest : filesOf s s.freeinode = none := by
        apply h.rest
        rw [length_map]
        omega
      refine (ialloc_spec h.made (by omega) hrest (by decide)).bind ?_
      rintro inum s1 ⟨hinum, hmade1, hfi1, hfb1, hfiles1⟩
      rw [hfi] at hinum hfiles1 hfi1
      rw [hinum, wp_bind]
      have hroot1 : filesOf s1 ROOTINO = some v := by
        rw [hfiles1, update_of_ne hne, hroot]
      refine (iappend_dirent hmade1 hroot1 hsize _ _ ?_).mono ?_
      · intro hr
        have h1 := (hroom hr).2
        have h2 : 16 * NINODES < MAXFILE * BSIZE := by decide
        omega
      rintro _ s2 ⟨hmade2, hfi2, hfb2, hfiles2⟩
      have hfile2 : filesOf s2 (done.length + 2) = some (.fresh T_FILE 0 0) := by
        rw [hfiles2, update_of_ne hne.symm, hfiles1, update_self]
      have hempty : Starts (View.fresh T_FILE 0 0).data [] :=
        fun j hj => absurd hj (Nat.not_lt_zero j)
      have hzero : blocksFor (View.fresh T_FILE 0 0).size = 0 := by decide
      have hnone : (View.fresh T_FILE 0 0).size + bufs.flatten.length = bufs.flatten.length :=
        Nat.zero_add _
      refine (appendAll_spec hmade2 hfile2 hempty rfl bufs ?_).mono ?_
      · intro hr
        obtain ⟨⟨-, -, -, hmax⟩, hblocks⟩ := hroom hr
        rw [hc, Option.getD_some] at hmax
        rw [hzero, hnone]
        omega
      rintro _ s' ⟨hmade', hfi', hfb', data, hdata, hfiles'⟩
      rw [hzero, hnone] at hfb'
      rw [nil_append, ← hbytes] at hdata
      rw [hfiles1, update_comm hne.symm] at hfiles2
      rw [hfiles2, update_idem, hnone] at hfiles'
      have hplain : View.Plain { View.fresh T_FILE 0 0 with
          size := bufs.flatten.length, data := data } := ⟨rfl, rfl⟩
      constructor
      · rw [map_append, map_singleton]
        refine h.add hmade' (by rw [length_map]; omega) hplain hdir hlink hlists ?_
        rw [length_map]
        exact hfiles'
      · exact hst.add (by omega) (by rw [hbytes]) hdata hfiles'
    · simp only [if_neg hlen]
      exact fun hr => hlen (hroom hr).1.2.2.1

theorem addFiles_spec (files : List Input) (hlt : done.length + files.length + 1 < NINODES)
    (hroom : room → (∀ file ∈ files, file.Fits) ∧ blocksUsed (done ++ files) ≤ FSSIZE) :
    Wp (Unless room) (addFiles ROOTINO files) s fun _ s' =>
      Progress s' ((done ++ files).map fun file => filename file.argv) ∧
        Stored s' (done ++ files) := by
  induction files generalizing s done with
  | nil =>
    rw [addFiles, wp_pure, append_nil]
    exact ⟨h, hst⟩
  | cons file files ih =>
    rw [length_cons] at hlt
    rw [append_cons] at hroom ⊢
    rw [addFiles]
    refine (addFile_spec h hst (by omega) file ?_).bind ?_
    · intro hr
      obtain ⟨hfits, hblocks⟩ := hroom hr
      exact ⟨hfits file mem_cons_self, (blocksUsed_append _ files).trans hblocks⟩
    rintro _ s1 ⟨hp, hst1⟩
    apply ih hp hst1
    · rw [length_append, length_singleton]
      omega
    · intro hr
      obtain ⟨hfits, hblocks⟩ := hroom hr
      exact ⟨fun f hf => hfits f (mem_cons_of_mem _ hf), hblocks⟩

end

theorem zeroSectors_spec (n k : Nat) (hd : s.disk = fun _ => zeroes) (hn : s.nsect = k) :
    Wp (Unless room) (zeroSectors n k) s fun _ s' => s' = { s with nsect := k + n } := by
  induction n generalizing s k with
  | zero =>
    rw [zeroSectors, wp_pure, ← hn]
    rfl
  | succ n ih =>
    rw [zeroSectors, wp_bind, wp_wsect]
    refine (ih (k + 1) ?_ ?_).mono ?_
    · rw [hd]
      exact update_eq_self k fun _ => zeroes
    · change max s.nsect (k + 1) = k + 1
      omega
    intro _ s' hs'
    rw [hs', hd]
    have hupd : update (fun _ => zeroes) k zeroes = fun _ : Nat => zeroes :=
      update_eq_self k fun _ => zeroes
    have hlen : k + 1 + n = k + (n + 1) := by omega
    rw [hupd, hlen, ← hd]

theorem zeroes_type (k : Nat) : (dinode.get zeroes k).type = 0 := by
  have hz : dinode.get zeroes k = dinode.dec fun _ => 0 := by
    unfold Codec.get zeroes
    congr 1
    funext j
    simp
  rw [hz]
  rfl

theorem blank_made (b : Block) :
    Made ⟨update (fun _ => zeroes) 1 b, FSSIZE, 1, nmeta⟩ ∧
      ∀ i, filesOf ⟨update (fun _ => zeroes) 1 b, FSSIZE, 1, nmeta⟩ i = none := by
  generalize hs : (⟨update (fun _ => zeroes) 1 b, FSSIZE, 1, nmeta⟩ : State) = s
  have hun : ∀ i, ¬ Allocated sb (inodes s) i := by
    rintro i ⟨hi, htype⟩
    have hb : sb.iblock i ≠ 1 := by
      have : 2 + nlog ≤ sb.iblock i := Nat.le_add_left _ _
      omega
    rw [inodes_eq hi, ← hs] at htype
    simp only [update_of_ne hb] at htype
    exact htype (zeroes_type _)
  have hfb : s.freeblock = nmeta := by rw [← hs]
  have hused : ∀ b, b < FSSIZE → used sb (image s) b = decide (b < nmeta) := by
    intro b hb
    rw [used_image (by rw [hfb]; decide) hb, hfb]
  have hplace : ∀ p, place sb (image s) (inodes s) p = none :=
    fun p => if_neg fun hp => hun p.1 hp.1
  have himg : Img sb (image s) (inodes s) := by
    constructor
    · constructor
      · intro p q a hp
        rw [hplace] at hp
        cases hp
      intro a
      constructor
      · rintro ⟨hge, hlt, hu⟩
        rw [hused a hlt] at hu
        rw [sb_nmeta] at hge
        have := of_decide_eq_true hu
        omega
      · rintro ⟨p, hp⟩
        rw [hplace] at hp
        cases hp
    · intro b hb
      rw [sb_nmeta] at hb
      rw [hused b (hb.trans (by decide))]
      exact decide_eq_true hb
    all_goals exact fun i hi => absurd hi (hun i)
  refine ⟨⟨⟨himg, ?_, ?_, ?_, ?_⟩, fun i hi => absurd hi (hun i)⟩, fun i => if_neg (hun i)⟩
  · rw [← hs]
  · rw [hfb]
  · rw [hfb]
    decide
  · intro c hc
    have hone : 1 < nmeta := by decide
    have hne : c ≠ 1 := by omega
    rw [← hs]
    exact update_of_ne (β := fun _ => Block) hne b fun _ => zeroes

theorem Progress.start (hmade : Made s') (hfi : s'.freeinode = 2) {files : Nat → Option View}
    (hnone : ∀ i, files i = none) (hfiles : filesOf s' = update files ROOTINO (some
      (((View.fresh T_DIR 0 0).setEntry 0 ⟨UInt16.ofNat ROOTINO, dot⟩).setEntry 1
        ⟨UInt16.ofNat ROOTINO, dotdot⟩))) : Progress s' [] := by
  refine ⟨hmade, hfi, ?_, ?_, ?_⟩
  · have hfresh : Lists (View.fresh T_DIR 0 0) [] := by
      refine ⟨rfl, fun k => ?_⟩
      change dirent.get (fun _ => 0) (k % 64) = .zero
      unfold Codec.get
      simp only [dite_eq_ite, ite_self]
      rfl
    refine ⟨_, ?_, rfl, rfl, (hfresh.append ⟨1, dot⟩).append ⟨1, dotdot⟩⟩
    rw [hfiles, update_self]
    rfl
  · intro i hlo hhi
    change i < 0 + 2 at hhi
    omega
  · intro i hi
    change i = 0 ∨ 0 + 2 ≤ i at hi
    rw [hfiles, update_of_ne (by unfold ROOTINO; omega)]
    exact hnone i

/-- The inode of the root directory with its size rounded up. -/
def roundedRoot (s : State) : Dinode :=
  { inodes s ROOTINO with
    size := UInt32.ofNat (((inodes s ROOTINO).size.toNat / BSIZE + 1) * BSIZE) }

/-- `main` once the root directory is there. -/
def finish (files : List Input) : MkfsM PUnit := do
  addFiles ROOTINO files
  fixRoot ROOTINO
  let s ← get
  balloc s.freeblock

variable {files : List Input} {m : MkfsM PUnit}

theorem main_start {Q : PUnit → State → Prop} (hm : main files = m)
    (hgo : ∀ s, Progress s [] → Stored s [] → Wp (Unless room) (finish files) s Q) :
    Wp (Unless room) m ⟨fun _ => zeroes, 0, 1, nmeta⟩ Q := by
  have hzero : ∀ n, Wp (Unless room) (zeroSectors n 0) ⟨fun _ => zeroes, 0, 1, nmeta⟩
      fun _ s' => s' = ⟨fun _ => zeroes, 0 + n, 1, nmeta⟩ :=
    fun n => zeroSectors_spec n 0 rfl rfl
  rw [← hm, main, wp_bind]
  -- the number of blocks is kept abstract so that no step computes the loop
  generalize hn : FSSIZE = n
  refine Wp.mono (hzero n) ?_
  subst hn
  intro _ s0 hs0
  rw [hs0, wp_bind, wp_wsect, wp_bind]
  have hnsect : max (0 + FSSIZE) (1 + 1) = FSSIZE := by decide
  rw [hnsect]
  obtain ⟨hmade0, hnone0⟩ := blank_made ((u32.array 8).put zeroes 0 sbWords)
  refine (ialloc_spec hmade0 (by decide) (hnone0 _) (by decide)).mono ?_
  rintro rootino s1 ⟨hroot, hmade1, hfi1, hfb1, hfiles1⟩
  have hroot : rootino = ROOTINO := hroot
  have hfb1 : s1.freeblock = nmeta := hfb1
  rw [if_pos hroot, hroot, wp_bind]
  have hv1 : filesOf s1 ROOTINO = some (.fresh T_DIR 0 0) := by
    rw [hfiles1]
    exact update_self ..
  have hsize : 16 < MAXFILE * BSIZE ∧ nmeta + 1 ≤ FSSIZE := by decide
  have hone : blocksFor (16 * 0) = 0 ∧ blocksFor (16 * 0 + 16) = 1 := by decide
  have htwo : blocksFor (16 * 1) = 1 ∧ blocksFor (16 * 1 + 16) = 1 := by decide
  refine (iappend_dirent hmade1 hv1 (k := 0) rfl _ _ fun _ => by omega).mono ?_
  rintro _ s2 ⟨hmade2, hfi2, hfb2, hfiles2⟩
  rw [wp_bind]
  have hv2 : filesOf s2 ROOTINO =
      some ((View.fresh T_DIR 0 0).setEntry 0 ⟨UInt16.ofNat ROOTINO, dot⟩) := by
    rw [hfiles2]
    exact update_self ..
  refine (iappend_dirent hmade2 hv2 (k := 1) rfl _ _ fun _ => by omega).mono ?_
  rintro _ s3 ⟨hmade3, hfi3, hfb3, hfiles3⟩
  apply hgo
  · apply Progress.start hmade3 (by rw [hfi3, hfi2, hfi1]) hnone0
    rw [hfiles3, hfiles2, hfiles1, update_idem]
    exact update_idem ..
  · refine ⟨?_, fun k file hfile => ?_⟩
    · have hnil : blocksUsed [] = nmeta + 1 := by decide
      omega
    · rw [getElem?_nil] at hfile
      cases hfile

theorem fixRoot_balloc_spec (h : Made s) :
    Wp (Unless room) (do fixRoot ROOTINO; let s ← get; balloc s.freeblock) s fun _ s' =>
      s'.disk = putDinode sb (image s) ROOTINO (roundedRoot s) ∧
        s'.freeinode = s.freeinode ∧ s'.freeblock = s.freeblock := by
  have hroot : ROOTINO < NINODES := by decide
  have hlow : sb.iblock ROOTINO < sb.bmapstart := sb.iblock_lt hroot
  have hns := h.built.nsect
  have hle := h.built.le
  have hbpb := FSSIZE_le_BPB
  rw [fixRoot, wp_bind, wp_bind]
  apply rinode_spec h.built hroot
  rw [winode, wp_bind]
  apply wp_rsect fun _ => iblock_lt_nsect hlow hns
  intro _
  rw [wp_wsect, wp_bind, wp_get, balloc, if_pos (by simp only; omega), wp_wsect]
  refine ⟨?_, rfl, rfl⟩
  unfold putDinode roundedRoot
  rw [image_of_ne (by omega)]
  exact update_comm (by omega) ..

theorem main_spec (hm : main files = m) (hlt : files.length + 1 < NINODES)
    (hroom : room → (∀ file ∈ files, file.Fits) ∧ blocksUsed files ≤ FSSIZE) :
    Wp (Unless room) m ⟨fun _ => zeroes, 0, 1, nmeta⟩ fun _ s' =>
      ∃ s, Progress s (files.map fun file => filename file.argv) ∧ Stored s files ∧
        s'.disk = putDinode sb (image s) ROOTINO (roundedRoot s) ∧
        s'.freeinode = s.freeinode ∧ s'.freeblock = s.freeblock := by
  apply main_start hm
  intro s hp hst
  rw [finish]
  refine (addFiles_spec hp hst files ?_ hroom).bind ?_
  · simpa using hlt
  rintro _ s1 ⟨hp1, hst1⟩
  rw [nil_append] at hp1 hst1
  refine (fixRoot_balloc_spec hp1.made).mono ?_
  intro _ s' hs'
  exact ⟨s1, hp1, hst1, hs'⟩

/-- The image before the size of the root directory is rounded up. -/
theorem mkfs_progress {d : Disk} (h : mkfs files = .ok d) (hlt : files.length + 1 < NINODES) :
    ∃ s, Progress s (files.map fun file => filename file.argv) ∧ Stored s files ∧
      d = putDinode sb (image s) ROOTINO (roundedRoot s) := by
  unfold mkfs at h
  generalize hm : main files = m at h
  cases hr : m ⟨fun _ => zeroes, 0, 1, nmeta⟩ with
  | error e =>
    rw [hr] at h
    cases h
  | ok r =>
    obtain ⟨_, s'⟩ := r
    rw [hr] at h
    cases h
    obtain ⟨s, hp, hst, hd, -⟩ := (main_spec hm hlt False.elim).result hr
    exact ⟨s, hp, hst, hd⟩

/-- Files for which there are enough blocks and inodes. -/
theorem main_ok (hm : main files = m) (hlt : files.length + 1 < NINODES)
    (hfits : ∀ file ∈ files, file.Fits) (hblocks : blocksUsed files ≤ FSSIZE) :
    ∃ s, m ⟨fun _ => zeroes, 0, 1, nmeta⟩ = .ok (⟨⟩, s) := by
  cases hr : m ⟨fun _ => zeroes, 0, 1, nmeta⟩ with
  | error e => exact absurd trivial ((main_spec hm hlt fun _ => ⟨hfits, hblocks⟩).error hr)
  | ok r => exact ⟨r.2, rfl⟩

theorem mkfs_ok (hlt : files.length + 1 < NINODES) (hfits : ∀ file ∈ files, file.Fits)
    (hblocks : blocksUsed files ≤ FSSIZE) : ∃ d, mkfs files = .ok d := by
  unfold mkfs
  generalize hm : main files = m
  obtain ⟨s, hs⟩ := main_ok hm hlt hfits hblocks
  rw [hs]
  exact ⟨_, rfl⟩

section Rounded

variable {d : Disk}

theorem Progress.root_size (h : Progress s names) :
    (inodes s ROOTINO).size.toNat = 16 * (names.length + 2) := by
  obtain ⟨v, hv, -, -, hlists⟩ := h.root
  obtain ⟨-, rfl⟩ := filesOf_eq_some.mp hv
  rw [← length_rootEntries]
  exact hlists.size

theorem Progress.root_allocated (h : Progress s names) : Allocated sb (inodes s) ROOTINO := by
  obtain ⟨v, hv, -⟩ := h.root
  exact (filesOf_eq_some.mp hv).1

theorem Progress.rounded_size (h : Progress s names) :
    (roundedRoot s).size.toNat = (16 * (names.length + 2) / BSIZE + 1) * BSIZE := by
  have hb := h.made.built.img.bound ROOTINO h.root_allocated
  have hmax : (MAXFILE * BSIZE / BSIZE + 1) * BSIZE < 2 ^ 32 := by decide
  have hle : ((inodes s ROOTINO).size.toNat / BSIZE + 1) * BSIZE ≤
      (MAXFILE * BSIZE / BSIZE + 1) * BSIZE :=
    Nat.mul_le_mul_right _ (Nat.succ_le_succ (Nat.div_le_div_right hb))
  rw [← h.root_size]
  exact UInt32.toNat_ofNat_of_lt' (hle.trans_lt hmax)

variable (hd : d = putDinode sb (image s) ROOTINO (roundedRoot s))
include hd

theorem dinodeAt_other (hi : i ≠ ROOTINO) : dinodeAt sb d i = inodes s i := by
  rw [hd, dinodeAt_putDinode_of_ne _ _ _ hi]
  rfl

theorem dinodeAt_root : dinodeAt sb d ROOTINO = roundedRoot s := by
  rw [hd, dinodeAt_putDinode_self]

theorem allocated_rounded (i : Nat) :
    Allocated sb (dinodeAt sb d) i ↔ Allocated sb (inodes s) i := by
  unfold Allocated
  by_cases hi : i = ROOTINO
  · rw [hi, dinodeAt_root hd]
    rfl
  · rw [dinodeAt_other hd hi]

variable (h : Progress s names) (hi : Allocated sb (inodes s) i)
include h hi

theorem Progress.slot_eq (k : Nat) :
    slot d (dinodeAt sb d i) k = slot (image s) (inodes s i) k := by
  have hlow : sb.iblock ROOTINO < sb.bmapstart := sb.iblock_lt (by decide)
  have hkeep : slot d (inodes s i) k = slot (image s) (inodes s i) k := by
    apply slot_congr rfl
    intro hind
    have := sb.bmapstart_lt
    have := (h.made.built.img.ind_mem hi hind).1
    rw [hd]
    exact update_of_ne (by omega) ..
  by_cases hir : i = ROOTINO
  · rw [← hkeep, hir, dinodeAt_root hd]
    exact slot_congr rfl (fun _ => rfl) k
  · rw [dinodeAt_other hd hir]
    exact hkeep

theorem Progress.blockAt_eq (bn : Nat) :
    blockAt d (dinodeAt sb d i) bn = blockAt (image s) (inodes s i) bn := by
  rw [blockAt_eq_slot, blockAt_eq_slot]
  exact h.slot_eq hd hi _

end Rounded

/-- There is no hole exactly if the entries of the root directory do not fill its blocks. -/
theorem Progress.noHole_iff {d : Disk} (h : Progress s names)
    (hd : d = putDinode sb (image s) ROOTINO (roundedRoot s)) :
    (∀ i, Allocated sb (dinodeAt sb d) i → ∀ bn, bn * BSIZE < (dinodeAt sb d i).size.toNat →
      blockAt d (dinodeAt sb d i) bn ≠ 0) ↔ (names.length + 2) % 64 ≠ 0 := by
  have hroot := h.root_allocated
  have hsize := h.rounded_size
  have htight := (h.made.tight ROOTINO hroot).blocks
  rw [h.root_size] at htight
  constructor
  · intro hall
    have hlast := hall ROOTINO ((allocated_rounded hd _).mpr hroot) (16 * (names.length + 2) / BSIZE)
    rw [dinodeAt_root hd, hsize, ← dinodeAt_root hd, h.blockAt_eq hd hroot, htight] at hlast
    have := hlast (Nat.mul_lt_mul_of_pos_right (Nat.lt_succ_self _) (by decide))
    unfold BSIZE at this
    omega
  intro hmod i hi bn hbn
  rw [allocated_rounded hd] at hi
  rw [h.blockAt_eq hd hi]
  by_cases hir : i = ROOTINO
  · rw [hir, dinodeAt_root hd, hsize] at hbn
    rw [hir, htight]
    unfold BSIZE at hbn ⊢
    omega
  · rw [dinodeAt_other hd hir] at hbn
    exact h.made.built.img.noHole i hi bn hbn

theorem mkfs_image_has_no_hole {files : List Input} {d : Disk} (h : mkfs files = .ok d)
    (hlt : files.length + 1 < NINODES) :
    (∀ i, Allocated sb (dinodeAt sb d) i → ∀ bn, bn * BSIZE < (dinodeAt sb d i).size.toNat →
      blockAt d (dinodeAt sb d i) bn ≠ 0) ↔ (files.length + 2) % 64 ≠ 0 := by
  obtain ⟨s, hp, -, hd⟩ := mkfs_progress h hlt
  rw [hp.noHole_iff hd, length_map]

/-- `n` empty files "a0", "a1", and so on. -/
def emptyFiles (n : Nat) : List Input :=
  (List.range n).map fun i => ⟨[97, UInt8.ofNat (48 + i)], some []⟩

theorem mkfs_emptyFiles : ∃ d, mkfs (emptyFiles 62) = .ok d :=
  mkfs_ok (by decide) (by decide +kernel) (by decide +kernel)

theorem mkfs_image_has_no_hole_one : ∃ d, mkfs (emptyFiles 1) = .ok d ∧
    ∀ i, Allocated sb (dinodeAt sb d) i → ∀ bn, bn * BSIZE < (dinodeAt sb d i).size.toNat →
      blockAt d (dinodeAt sb d i) bn ≠ 0 := by
  obtain ⟨d, hd⟩ : ∃ d, mkfs (emptyFiles 1) = .ok d := mkfs_ok (by decide) (by decide) (by decide)
  exact ⟨d, hd, (mkfs_image_has_no_hole hd (by decide)).mpr (by decide)⟩

/-- With 62 files the root directory ends where its only block ends, and its size is rounded up to
two blocks. -/
theorem full_root_directory_has_hole : (emptyFiles 62).length + 1 < NINODES ∧
    ∃ d, mkfs (emptyFiles 62) = .ok d ∧ Allocated sb (dinodeAt sb d) ROOTINO ∧
      1 * BSIZE < (dinodeAt sb d ROOTINO).size.toNat ∧ blockAt d (dinodeAt sb d ROOTINO) 1 = 0 := by
  have hlt : (emptyFiles 62).length + 1 < NINODES := by decide
  obtain ⟨d, h⟩ := mkfs_emptyFiles
  obtain ⟨s, hp, -, hd⟩ := mkfs_progress h hlt
  have hlen : ((emptyFiles 62).map fun file => filename file.argv).length = 62 := by
    simp [emptyFiles]
  have htight := (hp.made.tight ROOTINO hp.root_allocated).blocks
  rw [hp.root_size, hlen] at htight
  refine ⟨hlt, d, h, (allocated_rounded hd _).mpr hp.root_allocated, ?_, ?_⟩
  · rw [dinodeAt_root hd, hp.rounded_size, hlen]
    decide
  · rw [hp.blockAt_eq hd hp.root_allocated]
    by_contra hne
    exact absurd ((htight 1).mp hne) (by decide)

end Xv6.Mkfs
