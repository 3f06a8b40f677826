import Xv6.Kernel.Fs.Tree

namespace Xv6.Fs

open ByteCodec NameTree Function Option List

variable {n : Nat} {a b : Abs} {files : Nat → Option View} {i d k : Nat} {v dv : View}

theorem forall_file {p : View → Prop} (hi : files i = some v) (hv : p v) :
    ∀ w, files i = some w → p w := by
  intro w hw
  rw [hi] at hw
  cases hw
  exact hv

theorem vacant_target (hk : dv.Vacant k) (j : Nat) :
    ¬ (k < dv.nents ∧ (dv.entry k).target = some j) := by
  rintro ⟨hlt, ht⟩
  exact (Dirent.target_eq_some.mp ht).1 (hk.2.2 hlt)

namespace Rooted

theorem setSame (h : Rooted n a) (hfiles : b.files = update a.files i (some v))
    (hfreed : b.freed = a.freed) (hpos : 0 < i) (hlt : i < n) (hi : liveNode (a.files i) = none)
    (hv : ¬ v.Live) (hdead : v.type = T_DIR → ∀ k, k < v.nents → (v.entry k).Nameless)
    (hself : v.nlink.toInt + (if a.extra = some i then 1 else 0) =
      nlinkOf (a.files i) + if b.extra = some i then 1 else 0)
    (hother : ∀ j, j ≠ i → (b.extra = some j ↔ a.extra = some j))
    (hextra : b.extra = some i → v.type ≠ T_DIR) : Rooted n b where
  toShaped := by
    rw [hfiles]
    refine h.toShaped.set hpos hlt ?_ (fun hl => absurd hl hv) fun hdir _ => hdead hdir
    rw [Shaped.liveDirs_same hi (liveNode_dead hv)]
    exact h.tree
  count j hj := by
    have hc := h.count j hj
    rw [hfiles, Shaped.liveDirs_same hi (liveNode_dead hv)]
    by_cases hji : j = i
    · subst hji
      rw [update_self]
      change v.nlink.toInt = _
      omega
    · rw [update_of_ne hji, hc]
      simp only [hother j hji]
  extra j hj := by
    rw [hfiles]
    by_cases hji : j = i
    · subst hji
      exact ⟨v, update_self .., hextra hj⟩
    · rw [update_of_ne hji]
      exact h.extra j ((hother j hji).mp hj)
  freed := by
    rw [hfreed]
    exact h.freed

theorem reap (h : Rooted n a) (hi : a.files i = some v) (hlink : v.nlink = 0) :
    Rooted n (a.reap i v) := by
  have hlive : ¬ v.Live := by
    intro hl
    have := hl.2
    rw [hlink] at this
    exact absurd this (by decide)
  have hnode : liveNode (a.files i) = none := by
    rw [hi]
    exact liveNode_dead hlive
  have hsame : liveDirs (update a.files i none) = liveDirs a.files := Shaped.liveDirs_same hnode rfl
  have hself := h.nlink_eq hi
  rw [hlink] at hself
  change (0 : Int) = _ at hself
  have hextra : a.extra ≠ some i := by
    intro hx
    rw [if_pos hx] at hself
    omega
  have hfile : ∀ {j w}, update a.files i none j = some w → j ≠ i ∧ a.files j = some w := by
    intro j w hw
    by_cases hj : j = i
    · subst hj
      rw [update_self] at hw
      cases hw
    · rw [update_of_ne hj] at hw
      exact ⟨hj, hw⟩
  constructor
  · constructor
    · intro j w hw
      exact h.bound j w (hfile hw).2
    · exact hsame ▸ h.tree
    · intro j w hw
      exact h.dots j w (hfile hw).2
    · intro j w hw
      exact h.dead j w (hfile hw).2
  · intro j hj
    change nlinkOf (update a.files i none j) =
      refs _ (liveDirs (update a.files i none)) j + if a.extra = some j then 1 else 0
    rw [hsame]
    by_cases hji : j = i
    · subst hji
      rw [update_self]
      exact hself
    · rw [update_of_ne hji]
      exact h.count j hj
  · intro j hj
    change ∃ w, update a.files i none j = some w ∧ _
    rw [update_of_ne fun hji : j = i => hextra (hji ▸ hj)]
    exact h.extra j hj
  intro l hl
  unfold Abs.reap at hl
  by_cases hdir : v.type = T_DIR
  · rw [if_pos hdir, mem_append, mem_singleton] at hl
    cases hl with
    | inl hl => exact h.freed l hl
    | inr hl =>
      subst hl
      intro de hde
      obtain ⟨k, hk, rfl⟩ := List.mem_map.mp hde
      exact h.dead i v hi hdir hlive k (List.mem_range.mp hk)
  · rw [if_neg hdir] at hl
    exact h.freed l hl

/-- An entry of a live directory is written and link counts are adjusted: `files` are the files
before the entry is written. No live directory gets or loses a name. -/
theorem setEntry (h : Rooted n a) (hshape : Shaped n files)
    (hsame : liveDirs files = liveDirs a.files) (hd : files d = some dv) (hlive : dv.Live)
    (hw : dv.Writable k) (hk : 2 ≤ k) {de : Dirent}
    (hold : ∀ j, k < dv.nents → (dv.entry k).target = some j → liveDirs a.files j = none)
    (hnew : ∀ j, de.target = some j → liveDirs a.files j = none)
    (hde : de.inum ≠ 0 → de.name ≠ dot ∧ de.name ≠ dotdot)
    (hfiles : b.files = update files d (some (dv.setEntry k de)))
    (hcount : ∀ j, 0 < j → nlinkOf (files j) +
        (if k < dv.nents ∧ (dv.entry k).target = some j then 1 else 0) =
      refs (Finset.range n) (liveDirs a.files) j + (if de.target = some j then 1 else 0) +
        if b.extra = some j then 1 else 0)
    (hextra : ∀ j, b.extra = some j → ∃ v, files j = some v ∧ v.type ≠ T_DIR)
    (hfreed : b.freed = a.freed) : Rooted n b := by
  have hwlive : (dv.setEntry k de).Live := hlive
  refine ⟨?_, ?_, ?_, hfreed ▸ h.freed⟩
  · rw [← hsame] at hold hnew
    rw [hfiles]
    exact hshape.setEntry hd hlive hw hk hold hnew hde hwlive rfl id
  · intro j hj
    have hrefs := hshape.refs_setEntry hd hlive hw hk de hwlive rfl j
    have hc := hcount j hj
    have hnlink : nlinkOf (b.files j) = nlinkOf (files j) := by
      rw [hfiles]
      by_cases hjd : j = d
      · subst hjd
        rw [update_self, hd]
        rfl
      · rw [update_of_ne hjd]
    rw [hnlink, hfiles]
    rw [hsame] at hrefs
    push_cast [← @Nat.cast_inj Int] at hrefs
    linarith
  · intro j hj
    obtain ⟨v, hv, htype⟩ := hextra j hj
    refine ⟨v, ?_, htype⟩
    rw [hfiles, update_of_ne, hv]
    intro hjd
    rw [hjd, hd] at hv
    cases hv
    exact htype hlive.1

theorem target_ofNat (hpos : 0 < i) (hlt : i < n) (hn : n ≤ 2 ^ 16) (name : Fin DIRSIZ → UInt8)
    (j : Nat) : (Dirent.mk (UInt16.ofNat i) name).target = some j ↔ i = j := by
  rw [Dirent.target_eq_some, toNat_ofNat16 hlt hn]
  exact ⟨fun hj => hj.2, fun hj => ⟨ofNat16_ne_zero hpos hlt hn, hj⟩⟩

variable {name : List UInt8}

variable (h : Rooted n a) (hn : n ≤ 2 ^ 16)
include h hn

theorem create {type : Int16} (major minor : Int16) (hd : a.files d = some dv) (hlive : dv.Live)
    (hpos : 0 < i) (hlt : i < n) (hi : a.files i = none) (htype : type ≠ T_DIR) (hk : dv.Vacant k)
    (hname : dv.Lacks name)
    (hfiles : b.files = update (update a.files i (some (.fresh type major minor))) d
        (some (dv.setEntry k ⟨UInt16.ofNat i, strncpy name⟩)))
    (hextra : b.extra = a.extra) (hfreed : b.freed = a.freed) : Rooted n b := by
  have hself := h.self_ne hn hd hlive
  have hdots := h.dots d dv hd hlive
  have hnode : liveNode (a.files i) = none := by
    rw [hi]
    rfl
  have hfresh : ¬ (View.fresh type major minor).Live := fun hl => htype hl.1
  have htarget := target_ofNat hpos hlt hn (strncpy name)
  have hxi : a.extra ≠ some i := h.not_extra (by rw [hi]; simp)
  refine h.setEntry (h.toShaped.setFile hpos hlt hnode htype)
    (Shaped.liveDirs_same hnode (liveNode_dead hfresh)) ?_ hlive (.inr hk)
    (hdots.vacant_ge hself hk) (fun j hj ht => absurd ⟨hj, ht⟩ (vacant_target hk j)) ?_
    (fun _ => hdots.name_ne hself hname) hfiles ?_ ?_ hfreed
  · rw [update_of_ne, hd]
    intro heq
    rw [heq, hi] at hd
    cases hd
  · intro j hj
    rw [← (htarget j).mp hj]
    exact hnode
  · intro j hj
    rw [if_neg (vacant_target hk j), hextra]
    simp only [htarget]
    by_cases hji : j = i
    · subst hji
      rw [update_self, h.refs_absent hj hi, if_pos rfl, if_neg hxi]
      rfl
    · rw [update_of_ne hji, h.count j hj, if_neg (Ne.symm hji)]
      omega
  intro j hj
  rw [hextra] at hj
  rw [update_of_ne fun hji : j = i => hxi (hji ▸ hj)]
  exact h.extra j hj

theorem linkEnd (hex : a.extra = some i) (hd : a.files d = some dv) (hlive : dv.Live)
    (hk : dv.Vacant k) (hname : dv.Lacks name)
    (hfiles : b.files = update a.files d (some (dv.setEntry k ⟨UInt16.ofNat i, strncpy name⟩)))
    (hextra : b.extra = none) (hfreed : b.freed = a.freed) : Rooted n b := by
  have hself := h.self_ne hn hd hlive
  have hdots := h.dots d dv hd hlive
  obtain ⟨v, hi, htype⟩ := h.extra i hex
  obtain ⟨hpos, hlt⟩ := h.bound i v hi
  have htarget := target_ofNat hpos hlt hn (strncpy name)
  refine h.setEntry h.toShaped rfl hd hlive (.inr hk)
    (hdots.vacant_ge hself hk) (fun j hj ht => absurd ⟨hj, ht⟩ (vacant_target hk j)) ?_
    (fun _ => hdots.name_ne hself hname) hfiles ?_ ?_ hfreed
  · intro j hj
    rw [← (htarget j).mp hj]
    exact liveDirs_none (forall_file hi htype)
  · intro j hj
    have hc := h.count j hj
    rw [hex] at hc
    simp only [some.injEq] at hc
    rw [if_neg (vacant_target hk j), hextra]
    simp only [htarget, reduceCtorEq, if_false]
    omega
  · intro j hj
    rw [hextra] at hj
    cases hj

omit h hn in
theorem unlinkFile (h : Rooted n a) (hd : a.files d = some dv) (hdir : dv.type = T_DIR)
    (hk : k < dv.nents) (hne : (dv.entry k).inum ≠ 0) (hki : (dv.entry k).inum.toNat = i)
    (hname : (dv.entry k).name ≠ dot ∧ (dv.entry k).name ≠ dotdot) (hi : a.files i = some v)
    (htype : v.type ≠ T_DIR) (hlink : ¬ v.nlink < 1) (hfiles : b.files = update (update a.files i
      (some { v with nlink := v.nlink - 1 })) d (some (dv.setEntry k .zero)))
    (hextra : b.extra = a.extra) (hfreed : b.freed = a.freed) : Rooted n b := by
  have hlive := h.live_of_named hd hdir hk hne hname
  obtain ⟨hpos, hlt⟩ := h.bound i v hi
  have hnode : liveDirs a.files i = none := liveDirs_none (forall_file hi htype)
  have hdead : ¬ ({ v with nlink := v.nlink - 1 } : View).Live := fun hl => htype hl.1
  have hpred : (v.nlink - 1).toInt = v.nlink.toInt - 1 := by
    apply Int16.toInt_pred
    rwa [← Int16.pos_iff, ← Int16.not_lt_one]
  have htarget : ∀ j, (k < dv.nents ∧ (dv.entry k).target = some j) ↔ i = j := by
    intro j
    rw [Dirent.target_eq_some, hki]
    exact ⟨fun hj => hj.2.2, fun hj => ⟨hk, hne, hj⟩⟩
  have hsame := Shaped.liveDirs_same hnode (liveNode_dead hdead)
  have hshape1 : Shaped n (update a.files i (some { v with nlink := v.nlink - 1 })) :=
    h.toShaped.setFile hpos hlt hnode htype
  have hnone : ∀ j, Dirent.zero.target = some j → liveDirs a.files j = none := by
    intro j hj
    cases hj
  refine h.setEntry hshape1 hsame ?_ hlive (.inl hk) ((h.dots d dv hd hlive).named_ge hname) ?_
    hnone (fun h0 => absurd rfl h0) hfiles ?_ ?_ hfreed
  · rw [update_of_ne, hd]
    intro heq
    rw [heq, hi] at hd
    cases hd
    exact htype hdir
  · intro j hj ht
    rw [← (htarget j).mp ⟨hj, ht⟩]
    exact hnode
  · intro j hj
    have hc := h.count j hj
    rw [hextra, Dirent.target_zero]
    simp only [htarget, reduceCtorEq, if_false]
    by_cases hji : j = i
    · subst hji
      rw [hi] at hc
      rw [update_self, if_pos rfl]
      change v.nlink.toInt = _ at hc
      change (v.nlink - 1).toInt + 1 = _
      omega
    · rw [update_of_ne hji, if_neg (Ne.symm hji)]
      omega
  · intro j hj
    rw [hextra] at hj
    by_cases hji : j = i
    · subst hji
      exact ⟨_, update_self .., htype⟩
    · rw [update_of_ne hji]
      exact h.extra j hj

omit h hn in
theorem mkdir_dots {l : Nat} {major minor : Int16} (hpos : 0 < i) (hlt : i < n) (hdpos : 0 < d)
    (hdlt : d < n) (hn : n ≤ 2 ^ 16)
    (hv : v = (View.fresh T_DIR major minor).setEntry 0 ⟨UInt16.ofNat i, dot⟩) (hl : v.Vacant l) :
    (v.setEntry l ⟨UInt16.ofNat d, dotdot⟩).Dots i ∧
      (v.setEntry l ⟨UInt16.ofNat d, dotdot⟩).node = ⟨d, []⟩ := by
  have hnents : v.nents = 1 := by
    rw [hv, View.nents_setEntry_writable (.inr (fresh_vacant ..)), fresh_nents]
    rfl
  have hentry : v.entry 0 = ⟨UInt16.ofNat i, dot⟩ := by
    rw [hv, View.entry_setEntry_self]
  have hl1 : l = 1 := by
    obtain ⟨-, hle, hfree⟩ := hl
    by_contra hne
    have hl0 : l = 0 := by omega
    subst hl0
    have h0 := hfree (by omega)
    rw [hentry] at h0
    exact ofNat16_ne_zero hpos hlt hn h0
  subst hl1
  have hnents2 : (v.setEntry 1 ⟨UInt16.ofNat d, dotdot⟩).nents = 2 := by
    rw [View.nents_setEntry_writable (.inr hl), hnents]
    rfl
  refine ⟨⟨hnents2.ge, ?_, ?_, ?_⟩, ?_⟩
  · rw [View.entry_setEntry_of_ne (by decide), hentry]
  · rw [View.entry_setEntry_self]
    exact ⟨ofNat16_ne_zero hdpos hdlt hn, rfl⟩
  · intro k hk hlt
    omega
  · unfold View.node
    rw [View.entry_setEntry_self, toNat_ofNat16 hdlt hn, drop_eq_nil_of_le]
    · rfl
    · simp [View.entries, hnents2]

/-- A directory is made: its parent gains a name and a link. -/
theorem mkdir {l : Nat} {major minor : Int16} (hd : a.files d = some dv) (hlive : dv.Live)
    (hmax : dv.nlink ≠ 32767) (hpos : 0 < i) (hlt : i < n) (hi : a.files i = none)
    (hv : v = (View.fresh T_DIR major minor).setEntry 0 ⟨UInt16.ofNat i, dot⟩) (hl : v.Vacant l)
    (hk : dv.Vacant k) (hname : dv.Lacks name)
    (hfiles : b.files = update (update a.files i (some (v.setEntry l ⟨UInt16.ofNat d, dotdot⟩))) d
        (some { dv.setEntry k ⟨UInt16.ofNat i, strncpy name⟩ with nlink := dv.nlink + 1 }))
    (hextra : b.extra = a.extra) (hfreed : b.freed = a.freed) : Rooted n b := by
  have hdi : d ≠ i := by
    intro heq
    rw [heq, hi] at hd
    cases hd
  obtain ⟨hdpos, hdlt⟩ := h.bound d dv hd
  have hself := h.self_ne hn hd hlive
  have hdots := h.dots d dv hd hlive
  have hk2 := hdots.vacant_ge hself hk
  have htarget := target_ofNat hpos hlt hn (strncpy name)
  have hnone : liveDirs a.files i = none := liveDirs_none (by rw [hi]; simp)
  have hsucc := Int16.toInt_succ hmax
  obtain ⟨hwdots, hwnode⟩ := mkdir_dots hpos hlt hdpos hdlt hn hv hl
  generalize hw : v.setEntry l ⟨UInt16.ofNat d, dotdot⟩ = w at hwdots hwnode hfiles
  have hwone : w.nlink = 1 := by
    rw [← hw, hv]
    rfl
  have hwlive : w.Live := by
    refine ⟨?_, by rw [hwone]; decide⟩
    rw [← hw, hv]
    rfl
  generalize hdv' : ({ dv.setEntry k ⟨UInt16.ofNat i, strncpy name⟩ with
    nlink := dv.nlink + 1 } : View) = dv' at hfiles
  have hdlink : dv'.nlink = dv.nlink + 1 := by rw [← hdv']
  have hdlive : dv'.Live := by
    refine ⟨by rw [← hdv']; exact hlive.1, ?_⟩
    have := (Int16.pos_iff _).mp hlive.2
    rw [Int16.pos_iff, hdlink, hsucc]
    omega
  have hdnode : dv'.node = (dv.setEntry k ⟨UInt16.ofNat i, strncpy name⟩).node := by
    rw [← hdv']
    rfl
  -- The parent's entry comes first: the inode is no directory yet.
  have hshape1 : Shaped n (update a.files d (some dv')) := by
    refine h.toShaped.setEntry hd hlive (.inr hk) hk2
      (fun j hj ht => absurd ⟨hj, ht⟩ (vacant_target hk j)) ?_
      (fun _ => hdots.name_ne hself hname) hdlive hdnode ?_
    · intro j hj
      rw [← (htarget j).mp hj]
      exact hnone
    · intro hdd
      rw [← hdv']
      exact hdd.withNlink _
  have hrefs1 := fun j => h.toShaped.refs_setEntry hd hlive (.inr hk) hk2
    ⟨UInt16.ofNat i, strncpy name⟩ hdlive hdnode j
  simp only [htarget, if_neg (vacant_target hk _), Nat.add_zero] at hrefs1
  have hnone1 : liveDirs (update a.files d (some dv')) i = none := by
    rw [liveDirs_update, update_of_ne hdi.symm]
    exact hnone
  have hx : liveDirs a.files d = some dv.node := liveDirs_eq_some.mpr ⟨dv, hd, hlive, rfl⟩
  have hslots : k - 2 ≤ dv.node.slots.length := by
    have := hk.2.1
    rw [View.slots_length]
    omega
  have hnames1 : ∀ {d' k'}, Names (liveDirs (update a.files d (some dv'))) d' k' i ↔
      d' = d ∧ k' = k - 2 := by
    intro d' k'
    rw [liveDirs_update, liveNode_live hdlive, hdnode, View.node_setEntry (.inr hk) hk2,
      names_put hx hslots]
    split_ifs with heq
    · exact iff_of_true ((htarget i).mpr rfl) heq
    · refine iff_of_false (fun hname => ?_) heq
      have hpos' := hname.refs_pos (S := Finset.range n)
      rw [h.refs_absent hpos hi] at hpos'
      obtain ⟨x, hx', -⟩ := hname
      exact absurd (hpos' (h.mem_range hx')) (Nat.lt_irrefl 0)
  have hcomm : b.files = update (update a.files d (some dv')) i (some w) := by
    rw [hfiles, update_comm hdi.symm]
  have hshape2 : Shaped n (update (update a.files d (some dv')) i (some w)) := by
    refine hshape1.set hpos hlt ?_ (fun _ => hwdots) fun _ hl => absurd hwlive hl
    rw [liveDirs_update, liveNode_live hwlive]
    exact hshape1.tree.insert hnone1 (hnames1.mpr ⟨rfl, rfl⟩) (fun _ _ => hnames1.mp)
      (by rw [hwnode]) (by simp [hwnode])
  have hxi : a.extra ≠ some i := h.not_extra (by rw [hi]; simp)
  have hxd : a.extra ≠ some d := h.not_extra (forall_file hd hlive.1)
  refine ⟨hcomm ▸ hshape2, ?_, ?_, hfreed ▸ h.freed⟩
  · intro j hj
    have hrefs2 := refs_update (t := liveDirs (update a.files d (some dv')))
      (Finset.mem_range.mpr hlt) (some w.node) j
    have hwrefs : w.node.refs j = if d = j then 1 else 0 := by
      rw [hwnode]
      simp [Node.refs]
    rw [hnone1, ← liveNode_live hwlive, ← liveDirs_update, liveNode_live hwlive] at hrefs2
    simp only [map_some, map_none, getD_some, getD_none, Nat.add_zero, hwrefs, hrefs1] at hrefs2
    have hc := h.count j hj
    rw [hcomm, hrefs2, hextra]
    by_cases hji : j = i
    · subst hji
      rw [update_self, h.refs_absent hj hi, if_pos rfl, if_neg hdi, if_neg hxi]
      change w.nlink.toInt = _
      rw [hwone]
      rfl
    rw [update_of_ne hji, if_neg (Ne.symm hji)]
    by_cases hjd : j = d
    · subst hjd
      rw [hd] at hc
      rw [if_neg hxd] at hc ⊢
      rw [update_self, if_pos rfl]
      change dv.nlink.toInt = _ at hc
      change dv'.nlink.toInt = _
      rw [hdlink, hsucc]
      omega
    · rw [update_of_ne hjd, if_neg (Ne.symm hjd), hc]
      omega
  · intro j hj
    rw [hextra] at hj
    rw [hcomm, update_of_ne fun hji : j = i => hxi (hji ▸ hj),
      update_of_ne fun hjd : j = d => hxd (hjd ▸ hj)]
    exact h.extra j hj

end Rooted

/-- What `unlink` of a directory has checked: entry `k` of `d` names the empty directory `i`. -/
structure Rmdir (a : Abs) (d k i : Nat) (dv v : View) : Prop where
  hd : a.files d = some dv
  hdir : dv.type = T_DIR
  hk : k < dv.nents
  hne : (dv.entry k).inum ≠ 0
  hki : (dv.entry k).inum.toNat = i
  hname : (dv.entry k).name ≠ dot ∧ (dv.entry k).name ≠ dotdot
  hi : a.files i = some v
  hdi : d ≠ i
  htype : v.type = T_DIR
  hlink : ¬ v.nlink < 1
  hempty : ∀ l, 2 ≤ l → l < v.nents → (v.entry l).inum = 0

namespace Rmdir

section

variable (r : Rmdir a d k i dv v)
include r

theorem target (j : Nat) : (k < dv.nents ∧ (dv.entry k).target = some j) ↔ i = j := by
  rw [Dirent.target_eq_some, r.hki]
  exact ⟨fun hj => hj.2.2, fun hj => ⟨r.hk, r.hne, hj⟩⟩

theorem dirLive (h : Rooted n a) : dv.Live := h.live_of_named r.hd r.hdir r.hk r.hne r.hname

theorem live : v.Live := ⟨r.htype, (Int16.not_lt_one _).mp r.hlink⟩

theorem node : liveDirs a.files i = some v.node := liveDirs_eq_some.mpr ⟨v, r.hi, r.live, rfl⟩

theorem not_extra (h : Rooted n a) : a.extra ≠ some i ∧ a.extra ≠ some d :=
  ⟨h.not_extra (forall_file r.hi r.htype), h.not_extra (forall_file r.hd r.hdir)⟩

theorem two_le (h : Rooted n a) : 2 ≤ k := (h.dots d dv r.hd (r.dirLive h)).named_ge r.hname

theorem named (h : Rooted n a) : Names (liveDirs a.files) d (k - 2) i := by
  refine ⟨dv.node, liveDirs_eq_some.mpr ⟨dv, r.hd, r.dirLive h, rfl⟩, ?_⟩
  rw [View.slots_getElem?, Nat.sub_add_cancel (r.two_le h), if_pos r.hk, ((r.target i).mpr rfl).2]

theorem free : ∀ o ∈ v.node.slots, o = none := by
  intro o ho
  obtain ⟨l, hl⟩ := List.getElem?_of_mem ho
  rw [View.slots_getElem?] at hl
  split_ifs at hl with hlt
  cases o with
  | none => rfl
  | some j =>
    have hne := (Dirent.target_eq_some.mp (some.inj hl)).1
    exact absurd (r.hempty (l + 2) (by omega) hlt) hne

theorem names_none (l j : Nat) : ¬ Names (liveDirs a.files) i l j := by
  rintro ⟨x, hx, hs⟩
  rw [r.node] at hx
  cases hx
  cases r.free _ (mem_of_getElem? hs)

end

section

variable (r : Rmdir a d k i dv v) (h : Rooted n a)
include r h

theorem ne_root : i ≠ ROOTINO := by
  intro heq
  have hn := r.named h
  rw [heq] at hn
  exact h.tree.unnamed _ _ hn

theorem parent_eq : v.node.parent = d := by
  obtain ⟨j, hj⟩ := h.tree.named i v.node r.node (r.ne_root h)
  exact (h.tree.once i v.node _ _ _ _ r.node hj (r.named h)).1

theorem nlink_eq_one : v.nlink.toInt = 1 := by
  have hone := h.tree.refs_eq_one (fun _ _ => h.mem_range) r.node (r.named h) r.names_none
  rw [h.nlink_eq r.hi, hone, if_neg (r.not_extra h).1]
  rfl

/-- The directory has lost its last link: it leaves the tree before its name does. -/
theorem shaped {w : View} (hw : w = { v with nlink := v.nlink - 1 }) :
    w.nlink.toInt = 0 ∧ Shaped n (update a.files i (some w)) ∧
      liveDirs (update a.files i (some w)) =
        update (liveDirs a.files) i none := by
  have hzero : w.nlink.toInt = 0 := by
    have hone := r.nlink_eq_one h
    rw [hw]
    change (v.nlink - 1).toInt = 0
    rw [Int16.toInt_pred (by omega), hone]
    rfl
  have hdead : ¬ w.Live := by
    intro hl
    have := (Int16.pos_iff _).mp hl.2
    omega
  have hdirs : liveDirs (update a.files i (some w)) = update (liveDirs a.files) i none := by
    rw [liveDirs_update, liveNode_dead hdead]
  obtain ⟨hpos, hlt⟩ := h.bound i v r.hi
  refine ⟨hzero, h.toShaped.set hpos hlt ?_ (fun hl => absurd hl hdead) fun _ _ l hl => ?_, hdirs⟩
  · rw [hdirs]
    exact h.tree.remove (r.ne_root h) r.names_none
  have hvdots := h.dots i v r.hi r.live
  rw [hw] at hl ⊢
  by_cases hl2 : 2 ≤ l
  · exact .inl (r.hempty l hl2 hl)
  have hcases : l = 0 ∨ l = 1 := by omega
  cases hcases with
  | inl hl0 =>
    subst hl0
    exact .inr (.inl (congrArg Dirent.name hvdots.self))
  | inr hl1 =>
    subst hl1
    exact .inr (.inr hvdots.parent.2)

theorem refs_eq (j : Nat) :
    refs (Finset.range n) (update (liveDirs a.files) i none) j +
      (if d = j then 1 else 0) = refs (Finset.range n) (liveDirs a.files) j := by
  have hupd := refs_update (t := liveDirs a.files) (h.mem_range r.node) none j
  rw [r.node] at hupd
  simp only [map_some, map_none, getD_some, getD_none, Nat.add_zero,
    refs_of_empty r.free, r.parent_eq h] at hupd
  exact hupd

theorem two_le_nlink : 2 ≤ dv.nlink.toInt := by
  obtain ⟨-, hshape, hdirs⟩ := r.shaped h rfl
  have hdx : liveDirs (update a.files i (some { v with nlink := v.nlink - 1 })) d =
      some dv.node := by
    apply liveDirs_eq_some.mpr
    exact ⟨dv, by rw [update_of_ne r.hdi, r.hd], r.dirLive h, rfl⟩
  have h1 := hshape.tree.refs_pos (fun _ _ => hshape.mem_range) hdx
  have h2 := r.refs_eq h d
  have h3 := h.nlink_eq r.hd
  rw [hdirs] at h1
  rw [if_pos rfl] at h2
  rw [if_neg (r.not_extra h).2] at h3
  omega

/-- An empty directory is removed: it has lost its only link, and its parent a link. -/
theorem rooted (hfiles : b.files = update (update a.files i
      (some { v with nlink := v.nlink - 1 })) d
        (some { dv.setEntry k .zero with nlink := dv.nlink - 1 }))
    (hextra : b.extra = a.extra) (hfreed : b.freed = a.freed) : Rooted n b := by
  have hlive := r.dirLive h
  have hk2 := r.two_le h
  obtain ⟨hxi, hxd⟩ := r.not_extra h
  generalize hw : ({ v with nlink := v.nlink - 1 } : View) = w at hfiles
  obtain ⟨hwzero, hshape1, hdirs1⟩ := r.shaped h hw.symm
  have hd1 : update a.files i (some w) d = some dv := by
    rw [update_of_ne r.hdi, r.hd]
  have hdtwo := r.two_le_nlink h
  have hpred : (dv.nlink - 1).toInt = dv.nlink.toInt - 1 := Int16.toInt_pred (by omega)
  generalize hdv' : ({ dv.setEntry k .zero with nlink := dv.nlink - 1 } : View) = dv' at hfiles
  have hdlink : dv'.nlink = dv.nlink - 1 := by rw [← hdv']
  have hdlive : dv'.Live := by
    refine ⟨by rw [← hdv']; exact hlive.1, ?_⟩
    rw [Int16.pos_iff, hdlink, hpred]
    omega
  have hdnode : dv'.node = (dv.setEntry k .zero).node := by
    rw [← hdv']
    rfl
  have hnone : ∀ j, Dirent.zero.target = some j →
      liveDirs (update a.files i (some w)) j = none := by
    intro j hj
    cases hj
  refine ⟨?_, ?_, ?_, hfreed ▸ h.freed⟩
  · rw [hfiles]
    refine hshape1.setEntry hd1 hlive (.inl r.hk) hk2 ?_ hnone (fun h0 => absurd rfl h0) hdlive
      hdnode ?_
    · intro j hj ht
      rw [← (r.target j).mp ⟨hj, ht⟩, hdirs1, update_self]
    · intro hdd
      rw [← hdv']
      exact hdd.withNlink _
  · intro j hj
    have hrefs2 := hshape1.refs_setEntry hd1 hlive (.inl r.hk) hk2 .zero hdlive hdnode j
    simp only [r.target, Dirent.target_zero, reduceCtorEq, if_false, Nat.add_zero, hdirs1] at hrefs2
    have hj1 := r.refs_eq h j
    have hc := h.count j hj
    rw [hfiles, hextra]
    by_cases hjd : j = d
    · subst hjd
      rw [if_pos rfl] at hj1
      rw [if_neg r.hdi.symm] at hrefs2
      rw [r.hd, if_neg hxd] at hc
      rw [update_self, if_neg hxd]
      change dv.nlink.toInt = _ at hc
      change dv'.nlink.toInt = _
      rw [hdlink, hpred]
      omega
    rw [update_of_ne hjd]
    rw [if_neg (Ne.symm hjd)] at hj1
    by_cases hji : j = i
    · subst hji
      have hone := h.nlink_eq r.hi
      rw [r.nlink_eq_one h, if_neg hxi] at hone
      rw [if_pos rfl] at hrefs2
      rw [update_self, if_neg hxi]
      change w.nlink.toInt = _
      omega
    · rw [if_neg (Ne.symm hji)] at hrefs2
      rw [update_of_ne hji, hc]
      omega
  · intro j hj
    rw [hextra] at hj
    rw [hfiles, update_of_ne fun hjd : j = d => hxd (hjd ▸ hj),
      update_of_ne fun hji : j = i => hxi (hji ▸ hj)]
    exact h.extra j hj

end

end Rmdir

/-- Entries added only to live directories, and no link count that wraps. -/
def Abs.Regular (a : Abs) : Prop := a.dead = false ∧ a.maxed = false

/-- What has once gone wrong stays so. -/
theorem AbsStep.regular (hs : AbsStep n a b) (hb : b.Regular) : a.Regular := by
  obtain ⟨hdead, hmax⟩ := hb
  cases hs with
  | create | linkEnd =>
    exact ⟨(Bool.or_eq_false_iff.mp hdead).1, hmax⟩
  | mkdir =>
    exact ⟨(Bool.or_eq_false_iff.mp hdead).1, (Bool.or_eq_false_iff.mp hmax).1⟩
  | linkBegin => exact ⟨hdead, (Bool.or_eq_false_iff.mp hmax).1⟩
  | reap | write | orphan | linkUndo | unlinkFile | unlinkDir => exact ⟨hdead, hmax⟩

theorem live_of_noted (hdir : dv.type = T_DIR)
    (hdead : (a.dead || decide (dv.nlink < 1)) = false) : dv.Live := by
  refine ⟨hdir, (Int16.not_lt_one _).mp ?_⟩
  simpa using (Bool.or_eq_false_iff.mp hdead).2

theorem ne_of_noted (hmax : (a.maxed || decide (v.nlink = 32767)) = false) : v.nlink ≠ 32767 := by
  simpa using (Bool.or_eq_false_iff.mp hmax).2

theorem AbsStep.rooted (hs : AbsStep n a b) (h : Rooted n a) (hn : n ≤ 2 ^ 16) (hb : b.Regular) :
    Rooted n b := by
  obtain ⟨hdead, hmax⟩ := hb
  cases hs with
  | reap hi hlink => exact h.reap hi hlink
  | @write i v size data hi htype =>
    obtain ⟨hpos, hlt⟩ := h.bound i v hi
    refine h.setSame rfl rfl hpos hlt ?_ (fun hl => htype hl.1) (fun hdir => absurd hdir htype) ?_
      (fun _ _ => Iff.rfl) fun _ => htype
    · rw [hi]
      exact liveNode_dead fun hl => htype hl.1
    · rw [hi]
      rfl
  | @orphan i v hpos hlt hi hlink hdots =>
    have hdead : ¬ v.Live := by
      intro hl
      have := hl.2
      rw [hlink] at this
      exact absurd this (by decide)
    have hxi : a.extra ≠ some i := h.not_extra (by rw [hi]; simp)
    refine h.setSame rfl rfl hpos hlt ?_ hdead (fun hdir k hk => ((hdots hdir).2 k hk).2) ?_
      (fun _ _ => Iff.rfl) fun hx => absurd hx hxi
    · rw [hi]
      rfl
    · rw [hi, hlink]
      rfl
  | create major minor hd hdir hpos hlt hi htype hk hname =>
    exact h.create hn major minor hd (live_of_noted hdir hdead) hpos hlt hi htype hk hname rfl rfl
      rfl
  | mkdir hd hdir hdn hpos hlt hi hv hl hk hname =>
    exact h.mkdir hn hd (live_of_noted hdir hdead) (ne_of_noted hmax) hpos hlt hi hv hl hk hname rfl
      rfl rfl
  | @linkBegin i v hex hi htype =>
    obtain ⟨hpos, hlt⟩ := h.bound i v hi
    refine h.setSame rfl rfl hpos hlt ?_ (fun hl => htype hl.1) (fun hdir => absurd hdir htype) ?_ ?_
      fun _ => htype
    · rw [hi]
      exact liveNode_dead fun hl => htype hl.1
    · rw [hex, hi, if_neg (by simp), if_pos rfl]
      change (v.nlink + 1).toInt + 0 = v.nlink.toInt + 1
      rw [Int16.toInt_succ (ne_of_noted hmax), Int.add_zero]
    · intro j hj
      rw [hex]
      simp [Ne.symm hj]
  | linkEnd hex hlt hd hdir hk hname =>
    exact h.linkEnd hn hex hd (live_of_noted hdir hdead) hk hname rfl rfl rfl
  | @linkUndo i v hex hi =>
    obtain ⟨hpos, hlt⟩ := h.bound i v hi
    obtain ⟨w, hw, htype⟩ := h.extra i hex
    rw [hi] at hw
    cases hw
    have hself := h.nlink_eq hi
    rw [if_pos hex] at hself
    refine h.setSame rfl rfl hpos hlt ?_ (fun hl => htype hl.1) (fun hdir => absurd hdir htype) ?_ ?_
      fun _ => htype
    · rw [hi]
      exact liveNode_dead fun hl => htype hl.1
    · rw [hi, if_pos hex, if_neg (by simp)]
      change (v.nlink - 1).toInt + 1 = v.nlink.toInt + 0
      rw [Int16.toInt_pred (by omega)]
      omega
    · intro j hj
      rw [hex]
      simp [Ne.symm hj]
  | unlinkFile hd hdir hk hne hki hname hi hdi htype hlink =>
    refine h.unlinkFile hd hdir hk hne hki hname hi htype hlink ?_ rfl rfl
    exact update_comm hdi ..
  | unlinkDir hd hdir hk hne hki hname hi hdi htype hlink hempty =>
    refine Rmdir.rooted ⟨hd, hdir, hk, hne, hki, hname, hi, hdi, htype, hlink, hempty⟩ h ?_ rfl rfl
    exact update_comm hdi ..

theorem AbsSteps.regular (hs : AbsSteps n a b) (hb : b.Regular) : a.Regular := by
  induction hs with
  | refl => exact hb
  | tail _ hs ih => exact ih (hs.regular hb)

/-- Runs without irregular steps keep the tree and the link counts. -/
theorem AbsSteps.rooted (hs : AbsSteps n a b) (h : Rooted n a) (hn : n ≤ 2 ^ 16)
    (hb : b.Regular) : Rooted n b := by
  induction hs with
  | refl => exact h
  | tail _ hs ih => exact hs.rooted (ih (hs.regular hb)) hn hb

end Xv6.Fs
