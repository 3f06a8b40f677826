import Xv6.Kernel.Fs.Accounts

namespace Xv6.Fs

open Hoare Transition

/-- Every directory that has a link is as it was. -/
def SameLinkedDirs (sb : Superblock) (s s' : State) : Prop :=
  ∀ i v, s.files sb i = some v → v.type = T_DIR → v.nlink ≠ 0 → s'.files sb i = some v

/-- The part of `sys_open` that makes the file, before the mode is looked at again. -/
def openCreate (sb : Superblock) (p : Fin NPROC) (path : List UInt8) : FsM (Option (Fin NINODE)) :=
  do
    beginOp
    create sb p path T_FILE 0 0

variable {sb : Superblock} {s s' : State} {p : Fin NPROC}

section

variable (hinv : SysInv sb (.image False) s)
include hinv

theorem writable_not_dir (hrest : Rest sb s) {f : Fin NFILE}
    (htype : (s.file f).type = .inode ∨ (s.file f).type = .device)
    (hw : (s.file f).writable) : typeOf sb s (s.file f).ip ≠ T_DIR := by
  cases htype with
  | inl htype =>
    obtain ⟨hvalid, hnodir⟩ := hinv.inv.opened f htype
    rw [typeOf_valid hvalid]
    exact hnodir hw
  | inr htype =>
    rw [hrest.device f htype]
    decide

variable {r : Int}

theorem write_sameDirs {fd n io : Int} {src : Source}
    (hc : syscall sb p (.write fd src n io) s = .ok (r, s')) : SameDirs sb s s' := by
  have hspec : Wp (Allowed (.image False)) (sysWrite sb p fd src n io) s _ :=
    sysWrite_spec hinv.inv fd src n io
  exact (hspec.result hc).2.1.2

theorem open_linked (hp : (s.proc p).used)
    {path : List UInt8} {omode : Nat} (hmode : omode &&& O_CREATE = 0)
    (hc : syscall sb p (.open path omode) s = .ok (r, s')) : SameLinkedDirs sb s s' :=
  ((sysOpen_spared hinv.inv hinv.dirs (cwd_pos hp) path hmode False.elim).result hc).linked

/-- After the file has been made, `sys_open` leaves the directories alone. -/
theorem openCreate_linked (hp : (s.proc p).used)
    {path path' : List UInt8} {omode : Nat} (hpath : argstr path = some path')
    (hmode : omode &&& O_CREATE ≠ 0) (hc : syscall sb p (.open path omode) s = .ok (r, s')) :
    ∃ x m, openCreate sb p path' s = .ok (x, m) ∧ SameLinkedDirs sb m s' := by
  have hspec : Wp (Allowed (.image False)) (sysOpen sb p path omode) s fun _ s' =>
      ∃ x m, openCreate sb p path' s = .ok (x, m) ∧ SameLinkedDirs sb m s' := by
    unfold sysOpen
    rw [hpath]
    dsimp only
    rw [if_pos hmode, ← bind_assoc, wp_bind]
    have hcreate : Wp (Allowed (.image False)) (openCreate sb p path') s fun r m =>
        0 < m.outstanding ∧ ∃ s1, Created sb (procRefs s) T_FILE s1 r m := by
      rw [openCreate]
      refine beginOp_spec.bind ?_
      rintro _ s1 ⟨hc1, ho1⟩
      have hpos1 : 0 < s1.outstanding := by
        rw [ho1]
        exact Nat.succ_pos _
      have hcwd1 : 0 < procRefs s (s1.proc p).cwd := by
        rw [hc1.proc]
        exact cwd_pos hp
      refine (create_spec (hc1.inv hinv.inv) (hc1.did.dirs hinv.dirs) hpos1 hcwd1 path' (by decide)
        0 0 False.elim).mono ?_
      intro r m hr
      refine ⟨?_, s1, hr⟩
      cases r with
      | none => rw [hr.2.calm.outstanding]; exact hpos1
      | some e => rw [hr.2.1.calm.outstanding]; exact hpos1
    refine hcreate.remember.mono ?_
    rintro r m ⟨hrun, hpos, s1, hr⟩
    cases r with
    | none =>
      refine (end_spared hr.1 (-1)).mono ?_
      rintro _ s2 ⟨_, hspared, _⟩
      exact ⟨none, m, hrun, hspared.linked⟩
    | some e =>
      obtain ⟨hinv2, -, hvalid, htype⟩ := hr
      refine (openInode_spec hinv2 hpos hvalid fun _ => htype (by decide)).mono ?_
      rintro _ s2 ⟨_, hspared, _⟩
      exact ⟨some e, m, hrun, hspared.linked⟩
  exact hspec.result hc

end

/-- Directories change only through the directory layer. After any run of system calls from a
consistent image, no open file that may be written is a directory. A system call leaves the inode
and its type alone wherever an open file or a current directory refers to it before and after. So
`write` changes no directory, neither does `open` but for the entry it makes under `O_CREATE`, and
what any call does are the steps of the abstract file system, where only other files are written. -/
theorem directories_change_by_entries (sb : Superblock) (d : Disk) (h : Consistent sb d)
    (calls : List (Fin NPROC × Call)) (s : State) (hrun : Run (Step sb) (boot d) calls s) :
    (∀ f, (s.file f).type = .inode ∨ (s.file f).type = .device → (s.file f).writable = true →
      typeOf sb s (s.file f).ip ≠ T_DIR) ∧
    ∀ l s', Step sb s l s' →
      (∀ e, 0 < fileRefs s e + procRefs s e → 0 < fileRefs s' e + procRefs s' e →
        SameInode sb s s' e) ∧
      (∀ fd src n io, l.2 = .write fd src n io → SameDirs sb s s') ∧
      (∀ path omode, l.2 = .open path omode → omode &&& O_CREATE = 0 → SameLinkedDirs sb s s') ∧
      (∀ path path' omode, l.2 = .open path omode → omode &&& O_CREATE ≠ 0 →
        argstr path = some path' →
        ∃ x m, openCreate sb l.1 path' s = .ok (x, m) ∧ SameLinkedDirs sb m s') ∧
      AbsSteps sb.ninodes (s.abs sb none) (s'.abs sb none) := by
  have hboot : SysInv sb (.image False) (boot d) := boot_sysInv h fun hal => hal.elim
  have hinv := (run_sound hboot hrun).inv
  have hrest := run_rest hrun
  refine ⟨fun f => writable_not_dir hinv hrest, fun l s' hl => ?_⟩
  obtain ⟨p, c⟩ := l
  obtain ⟨hp, r, hc⟩ := syscall_of_step hl
  have hsettled := (syscall_settled hrest hp c).result hc
  refine ⟨fun e he he' => ?_, ?_, ?_, ?_, (call_ok hinv hl).steps⟩
  · rw [← hrest.refs e] at he
    rw [← hsettled.rest.refs e] at he'
    exact hsettled.kept e he he'
  · rintro fd src n io rfl
    exact write_sameDirs hinv hc
  · rintro path omode rfl hmode
    exact open_linked hinv hp hmode hc
  · rintro path path' omode rfl hmode hpath
    exact openCreate_linked hinv hp hpath hmode hc

/-- A new file is opened, and written. -/
theorem directories_change_by_entries_demo :
    ∃ s s', Run (Step Mkfs.sb) (boot demoImage) [(p0, .open [97, 0] (O_CREATE ||| O_RDWR))] s ∧
      Step Mkfs.sb s (p0, .write 0 ⟨fun _ => 7, fun _ m => m⟩ 6 0) s' ∧ SameDirs Mkfs.sb s s' := by
  have hexec : (exec (call Mkfs.sb) (boot demoImage)
      [(p0, .open [97, 0] (O_CREATE ||| O_RDWR))]).map (fun s =>
        ((call Mkfs.sb s (p0, .write 0 ⟨fun _ => 7, fun _ m => m⟩ 6 0)).map
          fun r => r.toOption.isSome)) = some (some true) := by decide +kernel
  obtain ⟨s, hs, hcall⟩ := Option.map_eq_some_iff.mp hexec
  obtain ⟨r, hr, hok⟩ := Option.map_eq_some_iff.mp hcall
  have hrun := run_of_exec _ _ _ _ hs
  cases r with
  | error x => cases hok
  | ok s' =>
    have hdirs := directories_change_by_entries Mkfs.sb demoImage demoImage_consistent _ s hrun
    exact ⟨s, s', hrun, hr, (hdirs.2 _ s' hr).2.1 _ _ _ _ rfl⟩

end Xv6.Fs
