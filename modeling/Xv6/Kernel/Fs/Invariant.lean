import Xv6.Kernel.Fs.Abstract
import Xv6.Kernel.Fs.TruncSpec

namespace Xv6.Fs

open ByteCodec Hoare Function

def File.refTo (x : File) (e : Fin NINODE) : Nat :=
  if (x.type = .inode ∨ x.type = .device) ∧ x.ip = e then 1 else 0

def fileRefs (s : State) (e : Fin NINODE) : Nat := ∑ f, (s.file f).refTo e

def State.files (sb : Superblock) (s : State) : Nat → Option View :=
  Fs.files sb s.disk (dinodeAt sb s.disk)

/-- The file system between two steps of a system call; `t` counts the references to the inode
table held outside of the file table. -/
structure Inv (sb : Superblock) (s : State) (t : Fin NINODE → Nat) : Prop where
  img : Img sb s.disk (dinodeAt sb s.disk)
  named : ∀ e, 0 < (s.inode e).ref → (s.inode e).dev = ROOTDEV ∧ (s.inode e).inum < sb.ninodes
  uniq : ∀ e e', 0 < (s.inode e).ref → 0 < (s.inode e').ref →
    (s.inode e).inum = (s.inode e').inum → e = e'
  cached : ∀ e, 0 < (s.inode e).ref → (s.inode e).valid = true →
    (s.inode e).din = dinodeAt sb s.disk (s.inode e).inum ∧ (s.inode e).din.type ≠ 0
  refs : ∀ e, (s.inode e).ref = fileRefs s e + t e
  closed : ∀ f, (s.file f).ref = 0 → (s.file f).type = .none
  opened : ∀ f, (s.file f).type = .inode → (s.inode (s.file f).ip).valid = true ∧
    ((s.file f).writable = true → (s.inode (s.file f).ip).din.type ≠ T_DIR)

variable {sb : Superblock} {s s' : State} {t t' : Fin NINODE → Nat} {e : Fin NINODE}

theorem fileRefs_congr (h : s'.file = s.file) (e : Fin NINODE) : fileRefs s' e = fileRefs s e := by
  unfold fileRefs
  rw [h]

theorem fileRefs_pos {f : Fin NFILE} (h : (s.file f).type = .inode ∨ (s.file f).type = .device) :
    0 < fileRefs s (s.file f).ip := by
  have h1 : (s.file f).refTo (s.file f).ip = 1 := if_pos ⟨h, rfl⟩
  have h2 := Counting.le_sum (fun g => (s.file g).refTo (s.file f).ip) f
  unfold fileRefs
  omega

namespace Inv

variable (h : Inv sb s t)
include h

theorem ref_pos (ht : 0 < t e) : 0 < (s.inode e).ref := by
  rw [h.refs e]
  omega

section

variable (hr : 0 < (s.inode e).ref) (hv : (s.inode e).valid)
include hr hv

theorem allocated : Allocated sb (dinodeAt sb s.disk) (s.inode e).inum := by
  obtain ⟨hd, ht⟩ := h.cached e hr hv
  exact ⟨(h.named e hr).2, hd ▸ ht⟩

theorem files_eq : s.files sb (s.inode e).inum = some (view s.disk (s.inode e).din) := by
  rw [(h.cached e hr hv).1]
  exact files_of_allocated (h.allocated hr hv)

omit hr hv in
theorem setIp {ip : Inode} (href : ip.ref = fileRefs s e + t' e) (ht : ∀ e', e' ≠ e → t' e' = t e')
    (hnamed : 0 < ip.ref → ip.dev = ROOTDEV ∧ ip.inum < sb.ninodes)
    (huniq : 0 < ip.ref → ∀ e', e' ≠ e → 0 < (s.inode e').ref → (s.inode e').inum ≠ ip.inum)
    (hcached : 0 < ip.ref → ip.valid = true → ip.din = dinodeAt sb s.disk ip.inum ∧ ip.din.type ≠ 0)
    (hopened : 0 < fileRefs s e → (s.inode e).valid = true →
      ip.valid = true ∧ ip.din.type = (s.inode e).din.type) :
    Inv sb (s.setIp e ip) t' := by
  have hself : (s.setIp e ip).inode e = ip := setIp_inode_self ..
  have hne : ∀ {e'}, e' ≠ e → (s.setIp e ip).inode e' = s.inode e' :=
    fun he => setIp_inode_of_ne he ip
  constructor
  · exact h.img
  · intro e' hr
    by_cases he : e' = e
    · subst he
      rw [hself] at hr ⊢
      exact hnamed hr
    · rw [hne he] at hr ⊢
      exact h.named e' hr
  · intro e1 e2 h1 h2 heq
    by_cases he1 : e1 = e <;> by_cases he2 : e2 = e
    · rw [he1, he2]
    · rw [he1, hself] at h1 heq
      rw [hne he2] at h2 heq
      exact absurd heq.symm (huniq h1 e2 he2 h2)
    · rw [he2, hself] at h2 heq
      rw [hne he1] at h1 heq
      exact absurd heq (huniq h2 e1 he1 h1)
    · rw [hne he1] at h1 heq
      rw [hne he2] at h2 heq
      exact h.uniq e1 e2 h1 h2 heq
  · intro e' hr hv
    by_cases he : e' = e
    · subst he
      rw [hself] at hr hv ⊢
      exact hcached hr hv
    · rw [hne he] at hr hv ⊢
      exact h.cached e' hr hv
  · intro e'
    by_cases he : e' = e
    · subst he
      rw [hself]
      exact href
    · rw [hne he, ht e' he]
      exact h.refs e'
  · exact h.closed
  · intro f hf
    rw [setIp_file] at hf ⊢
    obtain ⟨hv, hw⟩ := h.opened f hf
    by_cases he : (s.file f).ip = e
    · have hpos := fileRefs_pos (.inl hf)
      rw [he] at hpos hv hw
      obtain ⟨hv', ht'⟩ := hopened hpos hv
      rw [he, hself, ht']
      exact ⟨hv', hw⟩
    · rw [hne he]
      exact ⟨hv, hw⟩

omit hr hv in
theorem recount (hr : 0 < (s.inode e).ref) {n : Nat} {l : Bool} (hn : n = fileRefs s e + t' e)
    (ht : ∀ e', e' ≠ e → t' e' = t e') :
    Inv sb (s.setIp e { s.inode e with ref := n, locked := l }) t' :=
  h.setIp hn ht (fun _ => h.named e hr) (fun _ e' he hr' heq => he (h.uniq e' e hr' hr heq))
    (fun _ hv => h.cached e hr hv) fun _ hv => ⟨hv, rfl⟩

theorem change {ip' : Dinode}
    (himg : Img sb s'.disk (update (dinodeAt sb s.disk) (s.inode e).inum ip'))
    (hino : ∀ j, j < sb.ninodes →
      dinodeAt sb s'.disk j = update (dinodeAt sb s.disk) (s.inode e).inum ip' j)
    (hinode : s'.inode = update s.inode e { s.inode e with din := ip' })
    (hfile : s'.file = s.file) (htype : ip'.type = (s.inode e).din.type) :
    Inv sb s' t ∧
      s'.files sb = Fs.files sb s'.disk (update (dinodeAt sb s.disk) (s.inode e).inum ip') := by
  obtain ⟨himg', hfiles'⟩ := himg.congr_ino hino
  have hentry : s'.inode e = { s.inode e with din := ip' } := by
    rw [hinode, update_self]
  have hne : ∀ {e'}, e' ≠ e → s'.inode e' = s.inode e' := by
    intro e' he
    rw [hinode, update_of_ne he]
  have hsame : ∀ e', (s'.inode e').ref = (s.inode e').ref ∧ (s'.inode e').dev = (s.inode e').dev ∧
      (s'.inode e').inum = (s.inode e').inum ∧ (s'.inode e').valid = (s.inode e').valid ∧
      (s'.inode e').din.type = (s.inode e').din.type := by
    intro e'
    by_cases he : e' = e
    · rw [he, hentry]
      exact ⟨rfl, rfl, rfl, rfl, htype⟩
    · rw [hne he]
      exact ⟨rfl, rfl, rfl, rfl, rfl⟩
  refine ⟨⟨himg', ?_, ?_, ?_, ?_, ?_, ?_⟩, hfiles'⟩
  · intro e' hr'
    obtain ⟨h1, h2, h3, -⟩ := hsame e'
    rw [h1] at hr'
    rw [h2, h3]
    exact h.named e' hr'
  · intro e1 e2 h1 h2 heq
    rw [(hsame e1).1] at h1
    rw [(hsame e2).1] at h2
    rw [(hsame e1).2.2.1, (hsame e2).2.2.1] at heq
    exact h.uniq e1 e2 h1 h2 heq
  · intro e' hr' hv'
    by_cases he : e' = e
    · rw [he, hentry]
      refine ⟨?_, htype ▸ (h.cached e hr hv).2⟩
      rw [hino _ (h.named e hr).2, update_self]
    rw [hne he] at hr' hv' ⊢
    obtain ⟨hd, ht⟩ := h.cached e' hr' hv'
    refine ⟨?_, ht⟩
    rw [hino _ (h.named e' hr').2, update_of_ne]
    · exact hd
    · exact fun heq => he (h.uniq e' e hr' hr heq)
  · intro e'
    rw [(hsame e').1, fileRefs_congr hfile]
    exact h.refs e'
  · rw [hfile]
    exact h.closed
  · intro f hf
    rw [hfile] at hf ⊢
    obtain ⟨-, -, -, h4, h5⟩ := hsame (s.file f).ip
    rw [h4, h5]
    exact h.opened f hf

end

/-- Nothing but the file table, the processes, the log or the history changes. -/
theorem congr (hd : s'.disk = s.disk) (hi : s'.inode = s.inode) (hf : s'.file = s.file) :
    Inv sb s' t := by
  constructor
  · rw [hd]
    exact h.img
  · rw [hi]
    exact h.named
  · rw [hi]
    exact h.uniq
  · rw [hi, hd]
    exact h.cached
  · intro e
    rw [hi, fileRefs_congr hf]
    exact h.refs e
  · rw [hf]
    exact h.closed
  · rw [hf, hi]
    exact h.opened

end Inv

end Xv6.Fs
