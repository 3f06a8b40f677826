import Xv6.Kernel.Fs.Contents

namespace Xv6.Fs

open ByteCodec Hoare Function List

variable {sb : Superblock} {al : Known} {s s' : State} {t : Fin NINODE → Nat} {dp e : Fin NINODE}

def Found (sb : Superblock) (t : Fin NINODE → Nat) (s : State) (v : View) (name : List UInt8)
    (e : Fin NINODE) (off : Nat) (s' : State) : Prop :=
  ∃ l ip, off = 16 * l ∧ l < v.nents ∧ (v.entry l).inum ≠ 0 ∧ namecmp name (v.entry l).name = 0 ∧
    Got sb t s (v.entry l).inum.toNat e s' ip

/-- What a directory scan for a name returns. -/
def Looked (sb : Superblock) (t : Fin NINODE → Nat) (s : State) (v : View) (name : List UInt8) :
    Option (Fin NINODE × Nat) → State → Prop
  | none, s' => s' = s ∧ v.Lacks name ∧ v.size % 16 = 0
  | some (e, off), s' => Found sb t s v name e off s'

variable {v : View}

variable (h : Inv sb s t) (hr : 0 < (s.inode dp).ref) (hv : (s.inode dp).valid)
  (hview : view s.disk (s.inode dp).din = v)

section

include h hr hv hview

theorem dirlookupFrom_spec (hok : v.DirOk sb.ninodes al.whole) (name : List UInt8) (fuel k : Nat)
    (hk : 16 * k ≤ v.size) (hfuel : v.size < 16 * (k + fuel))
    (hbefore : ∀ l, l < k → (v.entry l).inum ≠ 0 → namecmp name (v.entry l).name ≠ 0)
    (hroom : al.room → ¬ v.Lacks name → Room s t 1) :
    Wp (Allowed al) (dirlookupFrom sb dp name fuel (16 * k)) s (Looked sb t s v name) := by
  have hsize := view_size hview
  induction fuel generalizing k with
  | zero => omega
  | succ fuel ih =>
    simp only [dirlookupFrom, wp_bind, wp_getInode, wp_ite, wp_panic, hsize]
    split_ifs with hlt
    · refine (readEntry_spec h hr hv (by rwa [hsize])).mono ?_
      rintro ⟨r, bytes⟩ s1 ⟨hs1, hread, hshort⟩
      subst hs1
      rw [hview, hsize] at hread
      rw [hsize] at hshort
      by_cases hr16 : r = 16
      · obtain ⟨hle, hde⟩ := hread hr16
        have hlk : k < v.nents := by
          unfold View.nents
          omega
        have hnext : ((v.entry k).inum ≠ 0 → namecmp name (v.entry k).name ≠ 0) →
            Wp (Allowed al) (dirlookupFrom sb dp name fuel (16 * k + 16)) s1
              (Looked sb t s1 v name) := by
          intro hthis
          apply ih (k + 1) (by omega) (by omega)
          intro l hl
          by_cases hlk' : l = k
          · rw [hlk']
            exact hthis
          · exact hbefore l (by omega)
        rw [if_neg (not_not.mpr hr16)]
        simp only [hde]
        split_ifs with h0 hname
        · exact hnext fun hne => absurd h0 hne
        · rw [(h.named dp hr).1]
          refine (iget_spec h (hok.1 k hlk) fun hr => hroom hr fun hl => hl k hlk h0 hname).mono ?_
          rintro e s' ⟨ip, hgot⟩
          exact ⟨k, ip, rfl, hlk, h0, hname, hgot⟩
        · exact hnext fun _ => hname
      · rw [if_pos hr16]
        intro hal
        have h16 := hok.2 hal
        have := hshort hr16
        omega
    · refine ⟨rfl, fun l hl => hbefore l ?_, by omega⟩
      unfold View.nents at hl
      omega

theorem dirlookup_spec (hok : v.type = T_DIR → v.DirOk sb.ninodes al.whole) (name : List UInt8)
    (hroom : al.room → ¬ v.Lacks name → Room s t 1) :
    Wp (Allowed al) (dirlookup sb dp name) s fun r s' =>
      v.type = T_DIR ∧ Looked sb t s v name r s' := by
  have hsize := view_size hview
  have htype : (s.inode dp).din.type = v.type := by rw [← hview]; rfl
  simp only [dirlookup, wp_bind, wp_getInode, wp_ite, wp_panic, htype, hsize]
  split_ifs with hdir
  · trivial
  · have hdir := not_not.mp hdir
    refine (dirlookupFrom_spec h hr hv hview (hok hdir) name _ 0 (Nat.zero_le _) (by omega)
      (fun l hl => absurd hl (Nat.not_lt_zero l)) hroom).mono ?_
    intro r s' hpost
    exact ⟨hdir, hpost⟩

theorem emptyFrom_spec (h16 : v.size % 16 = 0) (fuel k : Nat) (hk : 16 * k ≤ v.size)
    (hfuel : v.size < 16 * (k + fuel)) :
    Wp (Allowed al) (emptyFrom sb dp fuel (16 * k)) s fun off s' =>
      s' = s ∧ ∃ l, off = 16 * l ∧ v.Vacant l := by
  have hsize := view_size hview
  induction fuel generalizing k with
  | zero => omega
  | succ fuel ih =>
    simp only [emptyFrom, wp_bind, wp_getInode, wp_ite, wp_panic, wp_pure, hsize]
    split_ifs with hlt
    · refine (readEntry_spec h hr hv (by rwa [hsize])).mono ?_
      rintro ⟨r, bytes⟩ s1 ⟨hs1, hread, hshort⟩
      subst hs1
      rw [hview, hsize] at hread
      rw [hsize] at hshort
      by_cases hr16 : r = 16
      · obtain ⟨-, hde⟩ := hread hr16
        rw [if_neg (not_not.mpr hr16)]
        simp only [hde]
        split_ifs with h0
        · refine ⟨trivial, k, rfl, h16, ?_, fun _ => h0⟩
          unfold View.nents
          omega
        · exact ih (k + 1) (by omega) (by omega)
      · have := hshort hr16
        omega
    · refine ⟨trivial, k, rfl, h16, ?_, ?_⟩ <;>
      · unfold View.nents
        omega

end

theorem Keep.of_din {din : Dinode}
    (h : s'.inode = update s.inode e { s.inode e with din := din }) : Keep t s s' := by
  intro e' _
  rw [h]
  by_cases he : e' = e
  · rw [he, update_self]
    exact ⟨rfl, fun hv => hv⟩
  · rw [update_of_ne he]
    exact ⟨rfl, fun hv => hv⟩

/-- Only the cached copy of inode `e` changes in memory. -/
def DinOnly (e : Fin NINODE) (s s' : State) : Prop :=
  ∃ din, s'.inode = update s.inode e { s.inode e with din := din }

theorem DinOnly.keep (h : DinOnly e s s') : Keep t s s' := by
  obtain ⟨din, h⟩ := h
  exact .of_din h

section

variable (hd : DinOnly e s s') (e' : Fin NINODE)
include hd

theorem DinOnly.entry :
    (s'.inode e').ref = (s.inode e').ref ∧ (s'.inode e').inum = (s.inode e').inum ∧
      (s'.inode e').valid = (s.inode e').valid := by
  obtain ⟨din, hd⟩ := hd
  rw [hd]
  by_cases he : e' = e
  · rw [he, update_self]
    exact ⟨rfl, rfl, rfl⟩
  · rw [update_of_ne he]
    exact ⟨rfl, rfl, rfl⟩

theorem DinOnly.ref : (s'.inode e').ref = (s.inode e').ref := (hd.entry e').1

theorem DinOnly.inum : (s'.inode e').inum = (s.inode e').inum := (hd.entry e').2.1

theorem DinOnly.valid : (s'.inode e').valid = (s.inode e').valid := (hd.entry e').2.2

end

theorem DinOnly.of_ne (h : DinOnly e s s') {e' : Fin NINODE} (he : e' ≠ e) :
    s'.inode e' = s.inode e' := by
  obtain ⟨din, h⟩ := h
  rw [h, update_of_ne he]

theorem setNlink_spec (h : Inv sb s t) (hr : 0 < (s.inode e).ref) (hv : (s.inode e).valid)
    (ho : 0 < s.outstanding) (f : Int16 → Int16) :
    Wp (Allowed al) (setNlink e f) s fun _ s1 => Wp (Allowed al) (iupdate sb e) s1 fun _ s' =>
      Inv sb s' t ∧
      s'.files sb = update (s.files sb) (s.inode e).inum
        (some { view s.disk (s.inode e).din with nlink := f (s.inode e).din.nlink }) ∧
      DinOnly e s s' ∧ Frame s s' := by
  refine (updateDin_spec h hr hv ho (f := fun din => { din with nlink := f din.nlink })
    (fun _ => rfl) (fun _ => rfl) (fun _ => rfl)).mono ?_
  intro _ s1 hs1
  refine hs1.mono ?_
  rintro _ s' ⟨hinv, hfiles, hinode, hframe⟩
  exact ⟨hinv, hfiles, ⟨_, hinode⟩, hframe⟩

/-- An entry has been added to the directory `dp`. -/
def Linked (sb : Superblock) (s : State) (dp : Fin NINODE) (v : View) (name : List UInt8)
    (inum : Nat) (s' : State) : Prop :=
  ∃ l, v.Vacant l ∧ s'.files sb = update (s.files sb) (s.inode dp).inum
    (some (v.setEntry l ⟨UInt16.ofNat inum, strncpy name⟩))

section

include h hr hv hview

/-- The part of `dirlink` after the check that the name is not present. -/
theorem dirlinkTail_spec (ho : 0 < s.outstanding) (h16 : v.size % 16 = 0) (name : List UInt8)
    (inum : Nat) :
    Wp (Allowed al) (do
        let ip ← getInode dp
        let off ← emptyFrom sb dp (ip.din.size.toNat / 16 + 1) 0
        let r ← writei sb dp (direntSource ⟨UInt16.ofNat inum, strncpy name⟩) off 16
        return decide (r = 16)) s fun r s' =>
      Inv sb s' t ∧ Frame s s' ∧ DinOnly dp s s' ∧
        (r = true → Linked sb s dp v name inum s') ∧ (r = false → s'.files sb = s.files sb) := by
  have hsize := view_size hview
  simp only [wp_bind, wp_getInode, hsize]
  refine (emptyFrom_spec h hr hv hview h16 _ 0 (Nat.zero_le _) (by omega)).mono ?_
  rintro off s1 ⟨hs1, l, hoff, hl⟩
  subst hs1 hoff
  refine (writeEntry_spec h hr hv ho _ l).mono ?_
  rintro r s' ⟨hinv, hfiles, hdin, hframe⟩
  rw [wp_pure]
  rw [hview] at hfiles
  refine ⟨hinv, hframe, hdin, ?_, ?_⟩
  · intro hr16
    have hr16 : r = 16 := of_decide_eq_true hr16
    cases hfiles with
    | inl hfiles => exact ⟨l, hl, hfiles.2⟩
    | inr hfiles => exact absurd hr16 hfiles.1
  · intro hr16
    have hr16 : r ≠ 16 := of_decide_eq_false hr16
    cases hfiles with
    | inl hfiles => exact absurd hfiles.1 hr16
    | inr hfiles => exact hfiles.2

variable (hok : v.type = T_DIR → v.DirOk sb.ninodes al.whole) (ho : 0 < s.outstanding)
include hok ho

/-- `dirlink` of a name the directory does not hold. -/
theorem dirlinkNew_spec {name : List UInt8} (hlacks : v.Lacks name) (inum : Nat) :
    Wp (Allowed al) (dirlink sb dp name inum) s fun r s' =>
      Inv sb s' t ∧ Frame s s' ∧ DinOnly dp s s' ∧
        (r = true → Linked sb s dp v name inum s') ∧ (r = false → s'.files sb = s.files sb) := by
  rw [dirlink]
  refine (dirlookup_spec h hr hv hview hok name fun _ hn => absurd hlacks hn).bind ?_
  rintro r s1 ⟨_, hlook⟩
  cases r with
  | none =>
    obtain ⟨rfl, -, h16⟩ := hlook
    exact dirlinkTail_spec h hr hv hview ho h16 name inum
  | some x =>
    obtain ⟨l, ip, -, hl, hne, hname, -⟩ := hlook
    exact absurd hname (hlacks l hl hne)

theorem dirlink_spec (name : List UInt8) (inum : Nat) (hroom : al.room → Room s t 1) :
    Wp (Allowed al) (dirlink sb dp name inum) s fun r s' =>
      Inv sb s' t ∧ Calm s s' ∧ Keep t s s' ∧
        (r = true → v.type = T_DIR ∧ v.Lacks name ∧ Linked sb s dp v name inum s' ∧ Frame s s') ∧
        (r = false → Moved sb t s s') := by
  rw [dirlink]
  refine (dirlookup_spec h hr hv hview hok name fun hr _ => hroom hr).bind ?_
  rintro r s1 ⟨hdir, hlook⟩
  cases r with
  | none =>
    obtain ⟨rfl, hlacks, h16⟩ := hlook
    refine (dirlinkTail_spec h hr hv hview ho h16 name inum).mono ?_
    rintro r s' ⟨hinv, hframe, hdin, htrue, hfalse⟩
    refine ⟨hinv, hframe.calm, hdin.keep, fun hrt => ⟨hdir, hlacks, htrue hrt, hframe⟩, fun hrf => ?_⟩
    refine ⟨hframe.calm, hdin.keep, fun x => ?_⟩
    rw [hframe.abs_eq (hfalse hrf)]
    exact .refl
  | some x =>
    obtain ⟨l, ip, -, -, -, -, hgot⟩ := hlook
    have hm := hgot.moved
    simp only [wp_bind]
    refine (iput_spec hgot.inv (hm.calm.pos ho)).mono ?_
    intro _ s' hput
    rw [wp_pure]
    have hm' := hm.trans hput.moved
    exact ⟨hput.inv, hm'.calm, hm'.keep, fun hrt => Bool.noConfusion hrt, fun _ => hm'⟩

end

theorem skipelem_length {path name rest : List UInt8} (h : skipelem path = some (name, rest)) :
    rest.length < path.length := by
  unfold skipelem at h
  split at h
  · cases h
  · next c cs hdrop =>
    have hc : ¬ c = slash := by
      have := head?_dropWhile_not (fun x : UInt8 => decide (x = slash)) path
      rw [hdrop] at this
      simpa using this
    have hlen : (c :: cs).length ≤ path.length := by
      rw [← hdrop]
      exact (dropWhile_suffix _).length_le
    have hrest : rest = ((c :: cs).dropWhile (· ≠ slash)).dropWhile (· = slash) := by
      cases h
      rfl
    rw [dropWhile_cons, if_pos (by simpa using hc)] at hrest
    have h1 : rest.length ≤ (cs.dropWhile (· ≠ slash)).length := by
      rw [hrest]
      exact (dropWhile_suffix _).length_le
    have h2 := (dropWhile_suffix (l := cs) fun x : UInt8 => decide (x ≠ slash)).length_le
    rw [length_cons] at hlen
    omega

/-- What a path lookup returns: a new reference, or nothing. -/
def Named (sb : Superblock) (t : Fin NINODE → Nat) :
    Option (Fin NINODE × List UInt8) → State → Prop
  | none, s' => Inv sb s' t
  | some (e, _), s' => Inv sb s' (hold t e)

theorem Inv.dirOk (h : Inv sb s t) (hd : Dirs sb.ninodes al.whole (s.files sb))
    (hr : 0 < (s.inode e).ref) (hv : (s.inode e).valid)
    (hdir : (view s.disk (s.inode e).din).type = T_DIR) :
    (view s.disk (s.inode e).din).DirOk sb.ninodes al.whole :=
  hd _ _ (h.files_eq hr hv) hdir

theorem namexFrom_spec (h : Inv sb s (hold t e)) (hd : Dirs sb.ninodes al.whole (s.files sb))
    (ho : 0 < s.outstanding) (parent : Bool) (fuel : Nat) (path last : List UInt8)
    (hfuel : path.length < fuel) (hroom : al.room → Room s t 2) :
    Wp (Allowed al) (namexFrom sb parent fuel e path last) s fun r s' =>
      Named sb t r s' ∧ Moved sb t s s' ∧ Walked sb s s' := by
  induction fuel generalizing s e path last with
  | zero => omega
  | succ fuel ih =>
    rw [namexFrom]
    split
    · simp only [wp_ite, wp_bind, wp_pure]
      split_ifs with hp
      · refine (iput_spec h ho).mono ?_
        intro _ s' hput
        exact ⟨hput.inv, hput.moved, hput.walked⟩
      · exact ⟨h, .refl sb t s, .refl sb s⟩
    · next name rest hskip =>
      have hlen := skipelem_length hskip
      refine (ilock_spec h).bind ?_
      intro _ s1 hlock
      have hm1 := hlock.moved.of_hold
      have ho1 := hm1.calm.pos ho
      have hd1 := hm1.dirs hd
      simp only [wp_bind, wp_getInode, wp_ite]
      split_ifs with htype hp
      · refine (iunlockput_spec hlock.inv ho1).mono ?_
        intro _ s' hput
        exact ⟨hput.inv, hm1.trans hput.moved, hlock.walked.trans hput.walked⟩
      · refine (iunlock_spec hlock.inv).mono ?_
        rintro _ s' ⟨hs', hinv⟩
        subst hs'
        exact ⟨hinv, hm1.trans (.setIp (Keep.setIp fun _ => ⟨rfl, fun hv => hv⟩)),
          hlock.walked.trans (.setIp ..)⟩
      refine (dirlookup_spec hlock.inv hlock.ref hlock.valid rfl
        (hlock.inv.dirOk hd1 hlock.ref hlock.valid) name
        fun hr _ => ((hroom hr).congr hm1.calm.file).hold e).mono ?_
      rintro r s2 ⟨_, hlook⟩
      cases r with
      | none =>
        obtain ⟨rfl, -⟩ := hlook
        simp only [wp_bind]
        refine (iunlockput_spec hlock.inv ho1).mono ?_
        intro _ s' hput
        exact ⟨hput.inv, hm1.trans hput.moved, hlock.walked.trans hput.walked⟩
      | some x =>
        obtain ⟨l, ip, -, -, -, -, hgot⟩ := hlook
        have hm2 := hgot.moved.of_hold
        have hinv2 := hgot.inv
        rw [hold_comm] at hinv2
        simp only [wp_bind]
        refine (iunlockput_spec hinv2 (hm2.calm.pos ho1)).mono ?_
        intro _ s3 hput
        have hm3 := hput.moved.of_hold
        have hm := (hm1.trans hm2).trans hm3
        refine (ih hput.inv (hm.dirs hd) (hm.calm.pos ho) rest name
          (by omega) fun hr => (hroom hr).congr hm.calm.file).mono ?_
        rintro r s' ⟨hnamed, hm', hn'⟩
        exact ⟨hnamed, hm.trans hm', ((hlock.walked.trans hgot.walked).trans hput.walked).trans hn'⟩

variable {p : Fin NPROC} (hd : Dirs sb.ninodes al.whole (s.files sb))
  (ho : 0 < s.outstanding) (hcwd : 0 < t (s.proc p).cwd) (path : List UInt8)
include h hd ho hcwd

/-- `namex` is called with a reference to the current directory held. -/
theorem namex_spec (parent : Bool) (hroom : al.room → Room s t 2) :
    Wp (Allowed al) (namex sb p path parent) s fun r s' =>
      Named sb t r s' ∧ Moved sb t s s' ∧ Walked sb s s' := by
  unfold namex
  simp only [wp_bind, wp_get, wp_ite]
  split_ifs with hroot
  · refine (iget_spec h sb.root_lt fun hr => (hroom hr).mono (by decide)).mono ?_
    rintro e s1 ⟨ip, hgot⟩
    have hm := hgot.moved
    refine (namexFrom_spec hgot.inv (hm.dirs hd) (hm.calm.pos ho) parent _ path
      [] (Nat.lt_succ_self _) fun hr => (hroom hr).congr hm.calm.file).mono ?_
    rintro r s' ⟨hnamed, hm', hn'⟩
    exact ⟨hnamed, hm.trans hm', hgot.walked.trans hn'⟩
  refine (idup_spec h (h.ref_pos hcwd)).mono ?_
  rintro _ s1 ⟨hs1, hinv, hkeep⟩
  subst hs1
  have hm : Moved sb t s _ := .setIp hkeep
  refine (namexFrom_spec hinv (hm.dirs hd) ho parent _ path [] (Nat.lt_succ_self _) fun hr =>
    (hroom hr).congr hm.calm.file).mono ?_
  rintro r s' ⟨hnamed, hm', hn'⟩
  exact ⟨hnamed, hm.trans hm', Walked.trans (.setIp ..) hn'⟩

theorem namei_spec (hroom : al.room → Room s t 2) :
    Wp (Allowed al) (namei sb p path) s fun r s' =>
      Named sb t (r.map fun e => (e, [])) s' ∧ Moved sb t s s' ∧ Walked sb s s' := by
  rw [namei]
  refine (namex_spec h hd ho hcwd path false hroom).bind ?_
  rintro r s' ⟨hnamed, hm, hn⟩
  rw [wp_pure]
  refine ⟨?_, hm, hn⟩
  cases r with
  | none | some => exact hnamed

end Xv6.Fs
