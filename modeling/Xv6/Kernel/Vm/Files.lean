import Xv6.Kernel.Vm.Procs

namespace Xv6.Vm

open ByteCodec Hoare Counting Function List

def fds (p : Proc) (f : Fin NFILE) : Nat := ∑ fd, if p.ofile fd = some f then 1 else 0

def refs (proc : Fin NPROC → Proc) (f : Fin NFILE) : Nat := ∑ i, fds (proc i) f

def more (cnt : Fin NFILE → Nat) (f : Fin NFILE) : Fin NFILE → Nat :=
  update cnt f (cnt f + 1)

theorem more_apply {cnt : Fin NFILE → Nat} {f : Fin NFILE} (g : Fin NFILE) :
    more cnt f g = if g = f then cnt f + 1 else cnt g :=
  update_apply ..

theorem more_comm {cnt : Fin NFILE → Nat} {f g : Fin NFILE} :
    more (more cnt f) g = more (more cnt g) f := by
  funext k
  simp only [more_apply]
  grind

def Proc.withFiles (p : Proc) (ofile : Fin NOFILE → Option (Fin NFILE)) : Proc :=
  { p with ofile := ofile }

def Proc.setFd (p : Proc) (fd : Fin NOFILE) (x : Option (Fin NFILE)) : Proc :=
  p.withFiles (update p.ofile fd x)

section

variable (p : Proc) (fd : Fin NOFILE) (x : Option (Fin NFILE))

@[simp] theorem Proc.setFd_ofile : (p.setFd fd x).ofile = update p.ofile fd x := rfl

@[simp] theorem Proc.setFd_withFiles (ofile : Fin NOFILE → Option (Fin NFILE)) :
    (p.setFd fd x).withFiles ofile = p.withFiles ofile := rfl

end

theorem Proc.withFiles_self (p : Proc) : p.withFiles p.ofile = p := rfl

theorem Proc.setFd_setFd (p : Proc) (fd : Fin NOFILE) (x y : Option (Fin NFILE)) :
    (p.setFd fd x).setFd fd y = p.setFd fd y := by
  rw [setFd, setFd_ofile, update_idem]
  rfl

variable {fd : Fin NOFILE}

theorem Proc.setFd_comm (p : Proc) {fd' : Fin NOFILE} (hne : fd ≠ fd')
    (x y : Option (Fin NFILE)) : (p.setFd fd x).setFd fd' y = (p.setFd fd' y).setFd fd x := by
  rw [setFd, setFd_ofile, update_comm hne]
  rfl

theorem Proc.setFd_self (p : Proc) {x : Option (Fin NFILE)}
    (h : p.ofile fd = x) : p.setFd fd x = p := by
  rw [setFd, ← h, update_eq_self, withFiles_self]

section

variable {proc : Fin NPROC → Proc} {i : Fin NPROC} {fd : Fin NOFILE} {f : Fin NFILE}

theorem refs_congr {proc' : Fin NPROC → Proc} (h : ∀ j, (proc' j).ofile = (proc j).ofile) :
    refs proc' = refs proc := by
  funext f
  simp only [refs, fds, h]

theorem refs_update {q : Proc} (h : q.ofile = (proc i).ofile) :
    refs (update proc i q) = refs proc := by
  refine refs_congr fun j => ?_
  by_cases hj : j = i
  · subst hj
    rw [update_self, h]
  · rw [update_of_ne hj]

theorem refs_replace (proc : Fin NPROC → Proc) (i : Fin NPROC) (q : Proc) (f : Fin NFILE) :
    refs (update proc i q) f + fds (proc i) f = refs proc f + fds q f :=
  sum_update (fun p => fds p f) proc i q

theorem refs_setFd (h : (proc i).ofile fd = none) :
    refs (update proc i ((proc i).setFd fd (some f))) = more (refs proc) f := by
  funext g
  have h1 := refs_replace proc i ((proc i).setFd fd (some f)) g
  have h2 := sum_update (fun x : Option (Fin NFILE) => if x = some g then 1 else 0)
    (proc i).ofile fd (some f)
  simp only [h, reduceCtorEq, if_false, Option.some.injEq] at h2
  change fds ((proc i).setFd fd (some f)) g + 0 = fds (proc i) g + _ at h2
  by_cases hg : g = f
  · subst hg
    rw [if_pos rfl] at h2
    rw [more, update_self]
    omega
  · rw [if_neg (Ne.symm hg)] at h2
    rw [more, update_of_ne hg]
    omega

theorem refs_clearFd (h : (proc i).ofile fd = some f) :
    more (refs (update proc i ((proc i).setFd fd none))) f = refs proc := by
  have hnone : (update proc i ((proc i).setFd fd none) i).ofile fd = none := by
    rw [update_self, Proc.setFd_ofile, update_self]
  rw [← refs_setFd hnone]
  congr 1
  rw [update_idem]
  funext j
  by_cases hj : j = i
  · subst hj
    rw [update_self, update_self, Proc.setFd_setFd, Proc.setFd_self _ h]
  · rw [update_of_ne hj]

theorem refs_pos (h : (proc i).ofile fd = some f) : 0 < refs proc f := by
  rw [← refs_clearFd h, more, update_self]
  exact Nat.succ_pos _

theorem refs_none (h : ∀ j fd, (proc j).ofile fd = none) : refs proc f = 0 := by
  simp [refs, fds, h]

end

-- the sums are not to be unfolded in looking for a state
attribute [irreducible] refs

namespace Mem

variable {s : Mem} {p q k j v : Nat}

theorem setInt_page_ne (hp : p % PGSIZE = 0) (hq : q % PGSIZE = 0) (h : q ≠ p) :
    (s.setInt p k v).page (q / PGSIZE) = s.page (q / PGSIZE) :=
  setPage_ne (div_ne_of_aligned hp hq h)

theorem int_congr {s' : Mem} (h : s'.page (p / PGSIZE) = s.page (p / PGSIZE)) :
    s'.int p k = s.int p k := by
  rw [int, int, h]

theorem int_setInt_self (hk : k < 1024) (hv : v < 2 ^ 32) : (s.setInt p k v).int p k = v := by
  rw [int, setInt, setPage_self, Codec.get_put_self _ _ _ _ (by rw [PGSIZE]; omega)]
  exact Nat.mod_eq_of_lt hv

theorem int_setInt_index (h : j ≠ k) : (s.setInt p k v).int p j = s.int p j := by
  rw [int, setInt, setPage_self, Codec.get_put_of_ne _ _ _ _ _ _ h]
  rfl

end Mem

theorem Pipe.flag_lt (w : Bool) : Pipe.flag w < 1024 := by
  cases w <;> decide

theorem Pipe.flag_ne (w : Bool) : Pipe.flag (!w) ≠ Pipe.flag w := by
  cases w <;> decide

/-- The file table: the counts are as given, and the pages of pipes are those of the open files of
pipes. Of each pipe there is at most one file for an end, and the pipe knows which ends there are. -/
structure Files (own : Nat → Owner) (m : Mem) (cnt : Fin NFILE → Nat) (file : Fin NFILE → File) :
    Prop where
  count : ∀ f, (file f).ref = cnt f
  closed : ∀ f, (file f).ref = 0 → (file f).type = .FD_NONE
  pipe : ∀ p, own p = .pipe ↔ ∃ f, (file f).type = .FD_PIPE ∧ (file f).pipe = p
  side : ∀ f g, (file f).type = .FD_PIPE → (file g).type = .FD_PIPE →
    (file f).pipe = (file g).pipe → (file f).writable = (file g).writable → f = g
  opened : ∀ p w, own p = .pipe → (m.int p (Pipe.flag w) ≠ 0 ↔
    ∃ f, (file f).type = .FD_PIPE ∧ (file f).pipe = p ∧ (file f).writable = w)

/-- What the kernel knows about memory and open files. -/
structure Sound [Machine] (own : Nat → Owner) (cnt : Fin NFILE → Nat) (S : Sys) : Prop where
  procs : Procs own S.mem S.proc
  files : Files own S.mem cnt S.file

section

variable [Machine] {own own' : Nat → Owner} {m m' : Mem} {cnt cnt' : Fin NFILE → Nat}
  {file file' : Fin NFILE → File} {S S' : Sys} {f g : Fin NFILE} {i : Fin NPROC}
  {M : Owner → Prop} {E : Stop → Prop}

section

omit [Machine]

variable (h : Files own m cnt file)
include h

theorem Files.other (hl : Local M own own' m m') (hM : ¬ M .pipe)
    (hal : ∀ p, own p = .pipe → p % PGSIZE = 0) : Files own' m' cnt file := by
  refine ⟨h.count, h.closed, fun p => (hl.kept hM).trans (h.pipe p), h.side, fun p w hp => ?_⟩
  have hp' := (hl.kept hM).mp hp
  rw [Mem.int_congr (hl.frame p (hal p hp') (by rwa [hp']))]
  exact h.opened p w hp'

theorem Files.recount (hsame : ∀ g, ((file' g).type = .FD_PIPE ↔ (file g).type = .FD_PIPE) ∧
      (file' g).pipe = (file g).pipe ∧ (file' g).writable = (file g).writable)
    (hcount : ∀ g, (file' g).ref = cnt' g) (hclosed : ∀ g, cnt' g = 0 → (file' g).type = .FD_NONE) :
    Files own m cnt' file' := by
  refine ⟨hcount, fun g hg => hclosed g ((hcount g).symm.trans hg), fun p => ?_, fun f g => ?_,
    fun p w hp => ?_⟩
  · simp only [hsame]
    exact h.pipe p
  · simp only [hsame]
    exact h.side f g
  · simp only [hsame]
    exact h.opened p w hp

theorem Files.closed_of (hf : cnt f = 0) : (file f).type = .FD_NONE :=
  h.closed f ((h.count f).trans hf)

theorem Files.setRef {n : Nat} (hf : cnt f = 0 ∨ n ≠ 0)
    (hcnt : ∀ g, cnt' g = if g = f then n else cnt g) :
    Files own m cnt' (update file f { file f with ref := n }) := by
  refine h.recount (fun g => ?_) (fun g => ?_) fun g hg => ?_
  · by_cases hg : g = f
    · subst hg
      simp
    · simp [hg]
  · by_cases hg : g = f
    · subst hg
      simp [hcnt]
    · simp [hg, hcnt, h.count]
  rw [hcnt] at hg
  by_cases hgf : g = f
  · subst hgf
    rw [if_pos rfl] at hg
    rw [update_self]
    exact h.closed_of (hf.resolve_right (not_not.mpr hg))
  · rw [if_neg hgf] at hg
    rw [update_of_ne hgf]
    exact h.closed_of hg

end

variable {p : Nat}

theorem Sound.aligned (h : Sound own cnt S) (hp : own p = .pipe) : p % PGSIZE = 0 :=
  (h.procs.isPool hp (by simp)).1

theorem filealloc_spec (h : Sound own cnt S) :
    Wp E filealloc S fun res S' => res = none ∧ S' = S ∨
      ∃ f, res = some f ∧ (S.file f).ref = 0 ∧ (S.file f).type = .FD_NONE ∧
        S' = { S with file := update S.file f { S.file f with ref := 1 } } ∧
        Sound own (more cnt f) S' := by
  rw [filealloc, wp_bind, wp_get]
  generalize hfind : ((finRange NFILE).find? fun f => (S.file f).ref = 0) = slot
  cases slot with
  | none => exact .inl ⟨rfl, rfl⟩
  | some f =>
    have href : (S.file f).ref = 0 := by simpa using List.find?_some hfind
    have hcnt : cnt f = 0 := (h.files.count f).symm.trans href
    refine .inr ⟨f, rfl, href, h.files.closed f href, rfl, h.procs,
      h.files.setRef (.inl hcnt) fun g => ?_⟩
    rw [more_apply, hcnt]

theorem filedup_spec (h : Sound own cnt S) (hf : 0 < cnt f) :
    Wp E (filedup f) S fun _ S' =>
      S' = { S with file := update S.file f { S.file f with
        ref := (S.file f).ref + 1 } } ∧ Sound own (more cnt f) S' := by
  have href := h.files.count f
  rw [filedup]
  simp only [wp_bind, wp_get, wp_ite, wp_throw, wp_setFile]
  rw [if_neg (by omega)]
  refine ⟨trivial, h.procs, h.files.setRef (.inr (Nat.succ_ne_zero _)) fun g => ?_⟩
  rw [more_apply, href]

def File.drop (x : File) : File := { x with ref := 0, type := .FD_NONE }

omit [Machine] in
theorem Files.drop (h : Files own m (more cnt f) file) (hf : (file f).type ≠ .FD_PIPE)
    (hcnt : cnt f = 0) : Files own m cnt (update file f (file f).drop) := by
  refine h.recount (fun g => ?_) (fun g => ?_) fun g hg => ?_
  · by_cases hg : g = f
    · subst hg
      simp [File.drop, hf]
    · simp [hg]
  · by_cases hg : g = f
    · subst hg
      simp [File.drop, hcnt]
    · rw [update_of_ne hg, h.count, more_apply, if_neg hg]
  · by_cases hgf : g = f
    · subst hgf
      simp [File.drop]
    · rw [update_of_ne hgf]
      exact h.closed_of (by rwa [more_apply, if_neg hgf])

omit [Machine] in
theorem Files.dropEnd (h : Files own m (more cnt f) file) (hf : (file f).type = .FD_PIPE)
    (hcnt : cnt f = 0) (hown : ∀ q, own' q = .pipe ↔ own q = .pipe ∧ (q = (file f).pipe →
      ∃ g, g ≠ f ∧ (file g).type = .FD_PIPE ∧ (file g).pipe = q))
    (hint : ∀ q w, own' q = .pipe → m'.int q (Pipe.flag w) =
      if q = (file f).pipe ∧ w = (file f).writable then 0 else m.int q (Pipe.flag w)) :
    Files own' m' cnt (update file f (file f).drop) := by
  have hother : ∀ {g}, g ≠ f → update file f (file f).drop g = file g := fun hg =>
    update_of_ne hg ..
  have htype : ∀ g, (update file f (file f).drop g).type = .FD_PIPE ↔
      g ≠ f ∧ (file g).type = .FD_PIPE := by
    intro g
    by_cases hg : g = f
    · subst hg
      simp [File.drop]
    · simp [hg]
  refine ⟨?_, ?_, ?_, ?_, ?_⟩
  · intro g
    by_cases hg : g = f
    · subst hg
      simp [File.drop, hcnt]
    · rw [hother hg, h.count, more, update_of_ne hg]
  · intro g href
    by_cases hg : g = f
    · subst hg
      simp [File.drop]
    · rw [hother hg] at href ⊢
      exact h.closed g href
  · intro q
    rw [hown]
    constructor
    · rintro ⟨hq, hlast⟩
      obtain ⟨g, hg, hpipe⟩ := (h.pipe q).mp hq
      obtain ⟨g, hgf, hg, hpipe⟩ : ∃ g, g ≠ f ∧ (file g).type = .FD_PIPE ∧ (file g).pipe = q := by
        by_cases hgf : g = f
        · subst hgf
          exact hlast hpipe.symm
        · exact ⟨g, hgf, hg, hpipe⟩
      exact ⟨g, (htype g).mpr ⟨hgf, hg⟩, by rwa [hother hgf]⟩
    · rintro ⟨g, hg, hpipe⟩
      obtain ⟨hgf, hg⟩ := (htype g).mp hg
      rw [hother hgf] at hpipe
      exact ⟨(h.pipe q).mpr ⟨g, hg, hpipe⟩, fun _ => ⟨g, hgf, hg, hpipe⟩⟩
  · intro g g' hg hg' hpipe hside
    obtain ⟨hgf, hg⟩ := (htype g).mp hg
    obtain ⟨hgf', hg'⟩ := (htype g').mp hg'
    rw [hother hgf, hother hgf'] at hpipe hside
    exact h.side g g' hg hg' hpipe hside
  · intro q w hq
    have hopened := h.opened q w ((hown q).mp hq).1
    rw [hint q w hq]
    split_ifs with hend
    · obtain ⟨rfl, rfl⟩ := hend
      refine iff_of_false (by simp) ?_
      rintro ⟨g, hg, hpipe, hside⟩
      obtain ⟨hgf, hg⟩ := (htype g).mp hg
      rw [hother hgf] at hpipe hside
      exact hgf (h.side g f hg hf hpipe hside)
    rw [hopened]
    refine exists_congr fun g => ?_
    rw [htype]
    by_cases hgf : g = f
    · subst hgf
      refine iff_of_false ?_ (by simp)
      rintro ⟨-, hpipe, hside⟩
      exact hend ⟨hpipe.symm, hside.symm⟩
    · rw [hother hgf]
      simp [hgf]

/-- `pipeclose` frees the page with the last end. -/
theorem pipeclose_spec (h : Sound own (more cnt f) S) (hf : (S.file f).type = .FD_PIPE)
    (hcnt : cnt f = 0) :
    Wp E (pipeclose (S.file f).pipe (S.file f).writable) S.mem fun _ m' => ∃ own', Heap own' m' ∧
      Files own' m' cnt (update S.file f (S.file f).drop) ∧
      Local (fun o => o = .free ∨ o = .pipe) own own' S.mem m' := by
  have hown : own (S.file f).pipe = .pipe := (h.files.pipe _).mpr ⟨f, hf, rfl⟩
  have hside : ∀ g, g ≠ f → (S.file g).type = .FD_PIPE → (S.file g).pipe = (S.file f).pipe →
      (S.file g).writable = !(S.file f).writable := by
    intro g hgf hg hpipe
    by_contra hno
    exact hgf (h.files.side g f hg hf hpipe (by simpa using hno))
  have hopened := h.files.opened (S.file f).pipe (!(S.file f).writable) hown
  have hpool := h.procs.isPool hown (by simp)
  generalize hp : (S.file f).pipe = p at *
  generalize hw : (S.file f).writable = w at *
  have htouch : Touches (· = .pipe) own S.mem (S.mem.setInt p (Pipe.flag w) 0) :=
    .setPage hpool.1 hown
  have hheap := h.procs.heap.touches htouch (by rintro o rfl; simp [Owner.Data])
  have hself : (S.mem.setInt p (Pipe.flag w) 0).int p (Pipe.flag w) = 0 :=
    Mem.int_setInt_self (Pipe.flag_lt w) (by decide)
  have hback : (S.mem.setInt p (Pipe.flag w) 0).int p (Pipe.flag (!w)) =
      S.mem.int p (Pipe.flag (!w)) := Mem.int_setInt_index (Pipe.flag_ne w)
  have hint : ∀ q w', own q = .pipe → (S.mem.setInt p (Pipe.flag w) 0).int q (Pipe.flag w') =
      if q = p ∧ w' = w then 0 else S.mem.int q (Pipe.flag w') := by
    intro q w' hq
    split_ifs with hend
    · rw [hend.1, hend.2, hself]
    · by_cases hqp : q = p
      · have hw' : w' = !w := by
          cases w <;> cases w' <;> simp_all
        rw [hqp, hw', hback]
      · exact Mem.int_congr (Mem.setInt_page_ne hpool.1 (h.aligned hq) hqp)
  have hboth : ((S.mem.setInt p (Pipe.flag w) 0).int p Pipe.readopen = 0 ∧
      (S.mem.setInt p (Pipe.flag w) 0).int p Pipe.writeopen = 0) ↔
        S.mem.int p (Pipe.flag (!w)) = 0 := by
    cases w with
    | false => exact (and_iff_right hself).trans (by rw [← hback]; rfl)
    | true => exact (and_iff_left hself).trans (by rw [← hback]; rfl)
  rw [pipeclose]
  simp only [wp_bind, wp_modify, wp_get, wp_ite, wp_pure, hboth]
  split_ifs with hlast
  · have hnone : ¬ ∃ g, g ≠ f ∧ (S.file g).type = .FD_PIPE ∧ (S.file g).pipe = p := by
      rintro ⟨g, hgf, hg, hpipe⟩
      exact hopened.mpr ⟨g, hg, hpipe, hside g hgf hg hpipe⟩ hlast
    refine (hheap.kfree hpool hown (by simp [Owner.Single]) (by simp)).mono ?_
    rintro _ m' ⟨hheap', hl', hframe⟩
    refine ⟨_, hheap', h.files.dropEnd hf hcnt (fun q => ?_) (fun q w' hq => ?_),
      (htouch.isLocal.mono fun o => .inr).trans hl'⟩
    · rw [hp]
      by_cases hqp : q = p
      · subst hqp
        simp [hnone]
      · simp [hqp]
    have hqp : q ≠ p := by
      rintro rfl
      simp at hq
    rw [update_of_ne hqp] at hq
    rw [hp, hw, Mem.int_congr (hframe q (h.aligned hq) hqp)]
    exact hint q w' hq
  · obtain ⟨g, hg, hpipe, hwg⟩ := hopened.mp hlast
    refine ⟨own, hheap, h.files.dropEnd hf hcnt (fun q => ?_) ?_, htouch.isLocal.mono fun o => .inr⟩
    · refine (and_iff_left ?_).symm
      rintro rfl
      refine ⟨g, ?_, hg, hpipe.trans hp.symm⟩
      rintro rfl
      rw [hw] at hwg
      cases w <;> cases hwg
    · rw [hp, hw]
      exact hint

/-- The owners that operations on files may touch. -/
def Owner.Filed (o : Owner) : Prop := o = .free ∨ o = .pipe

theorem Sound.filed (h : Sound own cnt S) (hheap : Heap own' m') (hf : Files own' m' cnt' file')
    (hl : Local Owner.Filed own own' S.mem m') {S' : Sys} (hm : S'.mem = m')
    (hfile : S'.file = file') (hproc : S'.proc = S.proc) : Sound own' cnt' S' := by
  subst hm hfile
  refine ⟨?_, hf⟩
  rw [hproc]
  refine h.procs.keep hheap hl (by simp [Owner.Filed]) ?_ (by simp [Owner.Filed])
  rintro o (rfl | rfl) <;> simp [Owner.Single]

/-- A step that concerns files only. -/
structure Filing (own own' : Nat → Owner) (S S' : Sys) : Prop where
  proc : S'.proc = S.proc
  initproc : S'.initproc = S.initproc
  loc : Local Owner.Filed own own' S.mem S'.mem

omit [Machine] in
theorem Filing.trans {own'' : Nat → Owner} {S'' : Sys} (h : Filing own own' S S')
    (h' : Filing own' own'' S' S'') : Filing own own'' S S'' :=
  ⟨h'.proc.trans h.proc, h'.initproc.trans h.initproc, h.loc.trans h'.loc⟩

/-- `fileclose` drops a reference, and with the last one to a pipe its page. -/
theorem fileclose_spec (h : Sound own (more cnt f) S) :
    Wp E (fileclose f) S fun _ S' => ∃ own', Sound own' cnt S' ∧ Filing own own' S S' := by
  have href : (S.file f).ref = cnt f + 1 := by
    rw [h.files.count, more, update_self]
  rw [fileclose]
  simp only [wp_bind, wp_get, wp_ite, wp_throw, wp_setFile]
  rw [if_neg (by omega)]
  by_cases hlast : 1 < (S.file f).ref
  · rw [if_pos hlast]
    refine ⟨own, ⟨h.procs, h.files.setRef (.inr ?_) fun g => ?_⟩, rfl, rfl, .refl⟩
    · omega
    · rw [more_apply, href]
      split_ifs with hg
      · rw [hg, Nat.add_sub_cancel]
      · rfl
  have hcnt : cnt f = 0 := by omega
  rw [if_neg hlast]
  split_ifs with hpipe
  · rw [wp_onMem]
    refine (pipeclose_spec h hpipe hcnt).mono ?_
    rintro _ m' ⟨own', hheap, hf, hl⟩
    exact ⟨own', h.filed hheap hf hl rfl rfl rfl, rfl, rfl, hl⟩
  all_goals exact ⟨own, ⟨h.procs, h.files.drop hpipe hcnt⟩, rfl, rfl, .refl⟩

def File.asPipe (x : File) (p : Nat) (w : Bool) : File :=
  { x with type := .FD_PIPE, readable := !w, writable := w, pipe := p }

omit [Machine] in
/-- Two new files are made the ends of a new pipe. -/
theorem Files.newPipe (h : Files own m cnt file) (hfg : f ≠ g) (hf : cnt f ≠ 0)
    (hg : cnt g ≠ 0) (hft : (file f).type = .FD_NONE) (hgt : (file g).type = .FD_NONE)
    (hp : own p = .free) (hint : ∀ w, m'.int p (Pipe.flag w) ≠ 0)
    (hframe : ∀ q w, own q = .pipe → m'.int q (Pipe.flag w) = m.int q (Pipe.flag w)) :
    Files (update own p .pipe) m' cnt (update (update file f
      ((file f).asPipe p false)) g ((file g).asPipe p true)) := by
  generalize hfile : update (update file f ((file f).asPipe p false)) g
    ((file g).asPipe p true) = file'
  have hf' : file' f = (file f).asPipe p false := by
    rw [← hfile, update_of_ne hfg, update_self]
  have hg' : file' g = (file g).asPipe p true := by
    rw [← hfile, update_self]
  have hother : ∀ {k}, k ≠ f → k ≠ g → file' k = file k := by
    intro k hkf hkg
    rw [← hfile, update_of_ne hkg, update_of_ne hkf]
  -- a file of a pipe is one of the two or an old one, of another pipe
  have hcases : ∀ {k}, (file' k).type = .FD_PIPE → k = f ∨ k = g ∨
      k ≠ f ∧ k ≠ g ∧ file' k = file k ∧ (file k).type = .FD_PIPE ∧ (file k).pipe ≠ p := by
    intro k hk
    by_cases hkf : k = f
    · exact .inl hkf
    by_cases hkg : k = g
    · exact .inr (.inl hkg)
    rw [hother hkf hkg] at hk
    refine .inr (.inr ⟨hkf, hkg, hother hkf hkg, hk, fun heq => ?_⟩)
    have := (h.pipe p).mpr ⟨k, hk, heq⟩
    rw [hp] at this
    cases this
  have hold : ∀ {k}, (file k).type = .FD_PIPE → file' k = file k := by
    intro k hk
    refine hother ?_ ?_
    · rintro rfl
      rw [hft] at hk
      cases hk
    · rintro rfl
      rw [hgt] at hk
      cases hk
  refine ⟨?_, ?_, ?_, ?_, ?_⟩
  · intro k
    by_cases hkf : k = f
    · rw [hkf, hf', ← h.count]
      rfl
    by_cases hkg : k = g
    · rw [hkg, hg', ← h.count]
      rfl
    rw [hother hkf hkg, h.count]
  · intro k href
    by_cases hkf : k = f
    · rw [hkf, hf'] at href
      exact absurd ((h.count f).symm.trans href) hf
    by_cases hkg : k = g
    · rw [hkg, hg'] at href
      exact absurd ((h.count g).symm.trans href) hg
    rw [hother hkf hkg] at href ⊢
    exact h.closed k href
  · intro q
    by_cases hq : q = p
    · rw [hq, update_self]
      refine iff_of_true rfl ⟨f, ?_⟩
      rw [hf']
      exact ⟨rfl, rfl⟩
    rw [update_of_ne hq, h.pipe q]
    constructor
    · rintro ⟨k, hk, hpipe⟩
      refine ⟨k, ?_⟩
      rw [hold hk]
      exact ⟨hk, hpipe⟩
    rintro ⟨k, hk, hpipe⟩
    rcases hcases hk with rfl | rfl | ⟨-, -, heq, hk', -⟩
    · rw [hf'] at hpipe
      exact absurd hpipe.symm hq
    · rw [hg'] at hpipe
      exact absurd hpipe.symm hq
    · exact ⟨k, hk', by rwa [heq] at hpipe⟩
  · intro k l hk hl hpipe hside
    rcases hcases hk with rfl | rfl | ⟨-, -, heq, hk', hne⟩ <;>
      rcases hcases hl with rfl | rfl | ⟨-, -, heq', hl', hne'⟩
    · rfl
    · rw [hf', hg'] at hside
      cases hside
    · rw [hf', heq'] at hpipe
      exact absurd hpipe.symm hne'
    · rw [hf', hg'] at hside
      cases hside
    · rfl
    · rw [hg', heq'] at hpipe
      exact absurd hpipe.symm hne'
    · rw [hf', heq] at hpipe
      exact absurd hpipe hne
    · rw [hg', heq] at hpipe
      exact absurd hpipe hne
    · rw [heq, heq'] at hpipe hside
      exact h.side k l hk' hl' hpipe hside
  · intro q w hq
    by_cases hqp : q = p
    · subst hqp
      refine iff_of_true (hint w) ?_
      cases w with
      | false => exact ⟨f, by rw [hf']; exact ⟨rfl, rfl, rfl⟩⟩
      | true => exact ⟨g, by rw [hg']; exact ⟨rfl, rfl, rfl⟩⟩
    rw [update_of_ne hqp] at hq
    rw [hframe q w hq, h.opened q w hq]
    constructor
    · rintro ⟨k, hk, hpipe⟩
      refine ⟨k, ?_⟩
      rw [hold hk]
      exact ⟨hk, hpipe⟩
    rintro ⟨k, hk, hpipe, hside⟩
    rcases hcases hk with rfl | rfl | ⟨-, -, heq, hk', -⟩
    · rw [hf'] at hpipe
      exact absurd hpipe.symm hqp
    · rw [hg'] at hpipe
      exact absurd hpipe.symm hqp
    · exact ⟨k, hk', by rwa [heq] at hpipe, by rwa [heq] at hside⟩

def Mem.newPipe (m : Mem) (p : Nat) : Mem :=
  (((m.setInt p Pipe.readopen 1).setInt p Pipe.writeopen 1).setInt p Pipe.nwrite 0).setInt p
    Pipe.nread 0

section

omit [Machine]

theorem Mem.newPipe_flag (w : Bool) : (m.newPipe p).int p (Pipe.flag w) ≠ 0 := by
  have hnum : Pipe.flag w ≠ Pipe.nread ∧ Pipe.flag w ≠ Pipe.nwrite := by
    cases w <;> decide
  rw [newPipe, int_setInt_index hnum.1, int_setInt_index hnum.2]
  cases w with
  | false =>
    rw [int_setInt_index (by decide)]
    exact (int_setInt_self (by decide) (by decide)).trans_ne (by decide)
  | true => exact (int_setInt_self (by decide) (by decide)).trans_ne (by decide)

theorem Mem.newPipe_page_ne {q : Nat} (hp : p % PGSIZE = 0) (hq : q % PGSIZE = 0) (h : q ≠ p) :
    (m.newPipe p).page (q / PGSIZE) = m.page (q / PGSIZE) := by
  simp only [newPipe, setInt_page_ne hp hq h]

theorem Touches.newPipe (hp : p % PGSIZE = 0) (hM : M (own p)) : Touches M own m (m.newPipe p) := by
  refine ⟨rfl, fun q hq hm => Mem.newPipe_page_ne hp hq ?_⟩
  rintro rfl
  exact hm hM

end

/-- `pipealloc` makes two files, or changes nothing. -/
theorem pipealloc_spec (h : Sound own cnt S) :
    Wp E pipealloc S fun res S' => ∃ own', Filing own own' S S' ∧ Sound own' (match res with
        | none => cnt
        | some (f, g) => more (more cnt f) g) S' := by
  rw [pipealloc]
  refine (filealloc_spec h).bind ?_
  rintro _ _ (⟨rfl, rfl⟩ | ⟨f, rfl, hf, hft, rfl, h1⟩)
  · exact ⟨own, ⟨rfl, rfl, .refl⟩, h⟩
  refine (filealloc_spec h1).bind ?_
  rintro _ _ (⟨rfl, rfl⟩ | ⟨g, rfl, hg, hgt, rfl, h2⟩)
  · simp only [pipeBad, wp_bind, wp_pure]
    refine (fileclose_spec h1).mono ?_
    rintro _ S' ⟨own', h', hs⟩
    exact ⟨own', ⟨hs.proc, hs.initproc, hs.loc⟩, h'⟩
  have hfg : f ≠ g := by
    rintro rfl
    simp at hg
  have hft2 : (update (update S.file f { S.file f with ref := 1 }) g
      { update S.file f { S.file f with ref := 1 } g with ref := 1 } f).type = .FD_NONE := by
    simpa [hfg] using hft
  have hgt2 : (update (update S.file f { S.file f with ref := 1 }) g
      { update S.file f { S.file f with ref := 1 } g with ref := 1 } g).type = .FD_NONE := by
    simpa using hgt
  generalize update (update S.file f { S.file f with ref := 1 }) g
    { update S.file f { S.file f with ref := 1 } g with ref := 1 } = file2 at *
  rw [wp_bind, wp_onMem]
  refine (h2.procs.heap.kalloc (o := .pipe) (by simp [Owner.Single]) (by simp)).mono ?_
  rintro p m1 (⟨rfl, hheap, hl⟩ | ⟨hne, hfree, hpool, hheap, hl, hframe⟩)
  · have hl' : Local Owner.Filed own own S.mem m1 := hl.mono fun o => .inl
    have h3 : Sound own (more (more cnt g) f) { S with mem := m1, file := file2 } := by
      rw [more_comm]
      exact h2.filed hheap (h2.files.other hl (by simp) fun p => h2.aligned) hl' rfl rfl rfl
    simp only [if_true, pipeBad, wp_bind, wp_pure]
    refine (fileclose_spec h3).mono ?_
    rintro _ S4 ⟨own4, h4, hs4⟩
    refine (fileclose_spec h4).mono ?_
    rintro _ S5 ⟨own5, h5, hs5⟩
    refine ⟨own5, .trans ?_ (hs4.trans hs5), h5⟩
    exact ⟨rfl, rfl, hl'⟩
  · simp only [if_neg hne, wp_bind, wp_onMem, wp_modify, wp_setFile, wp_pure]
    have htouch : Touches (· = .pipe) (update own p .pipe) m1 (m1.newPipe p) :=
      .newPipe hpool.1 (update_self ..)
    have hkeep : ∀ q w, own q = .pipe → (m1.newPipe p).int q (Pipe.flag w) =
        S.mem.int q (Pipe.flag w) := by
      intro q w hq
      have hqp : q ≠ p := by
        rintro rfl
        rw [hfree] at hq
        cases hq
      refine Mem.int_congr ?_
      rw [Mem.newPipe_page_ne hpool.1 (h.aligned hq) hqp]
      exact hframe q (h.aligned hq) hqp
    have hl' : Local Owner.Filed own (update own p .pipe) S.mem (m1.newPipe p) :=
      hl.trans (htouch.isLocal.mono fun o => .inr)
    have hfiles := h2.files.newPipe hfg (by simp [more_apply, hfg]) (by simp [more_apply]) hft2 hgt2
      hfree Mem.newPipe_flag hkeep
    rw [update_of_ne hfg.symm]
    refine ⟨_, ⟨rfl, rfl, hl'⟩, h2.filed (hheap.touches htouch ?_) hfiles hl' rfl rfl rfl⟩
    rintro o rfl
    simp [Owner.Data]

theorem closeBoth_spec {α : Type} {x : SysM α} {Q : α → Sys → Prop}
    (h : Sound own (more (more cnt f) g) S)
    (hx : ∀ own' S', Sound own' cnt S' → Filing own own' S S' → Wp E x S' Q) :
    Wp E (do fileclose f; fileclose g; x) S Q := by
  rw [wp_bind]
  rw [more_comm] at h
  refine (fileclose_spec h).mono ?_
  rintro _ S1 ⟨own1, h1, hs1⟩
  refine (fileclose_spec h1).bind ?_
  rintro _ S2 ⟨own2, h2, hs2⟩
  exact hx own2 S2 h2 (hs1.trans hs2)

theorem Sound.setProc (h : Sound own cnt S) (q : Proc) (hp : q.pagetable = (S.proc i).pagetable)
    (hsz : q.sz = (S.proc i).sz) (ht : q.trapframe = (S.proc i).trapframe) :
    Sound own cnt { S with proc := update S.proc i q } :=
  ⟨h.procs.updated hp hsz ht, h.files⟩

section

omit [Machine]

theorem wp_fdalloc {Q : Option (Fin NOFILE) → Sys → Prop} (hnone : Q none S)
    (hsome : ∀ fd, (S.proc i).ofile fd = none →
      Q (some fd) { S with proc := update S.proc i ((S.proc i).setFd fd (some f)) }) :
    Wp E (fdalloc i f) S Q := by
  rw [fdalloc, wp_bind, wp_get]
  generalize hfind : ((finRange NOFILE).find? fun fd => ((S.proc i).ofile fd).isNone) = slot
  cases slot with
  | none => exact hnone
  | some fd => exact hsome fd (by simpa using List.find?_some hfind)

theorem wp_setFd {x : Option (Fin NFILE)} {Q : Unit → Sys → Prop} :
    Wp E (setProc i fun p => { p with ofile := update p.ofile fd x }) S Q ↔
      Q () { S with proc := update S.proc i ((S.proc i).setFd fd x) } := Iff.rfl

@[simp] theorem wp_clearFd {Q : Unit → Sys → Prop} :
    Wp E (clearFd i fd) S Q ↔
      Q () { S with proc := update S.proc i ((S.proc i).setFd fd none) } := Iff.rfl

end

/-- What a call to do with files may touch. -/
def Owner.FiledOr (r : Nat) (o : Owner) : Prop := o.Filed ∨ o.User r

/-- A call has changed the open files of the process, and perhaps the user's memory. -/
structure Filed (own own' : Nat → Owner) (i : Fin NPROC) (S S' : Sys) : Prop where
  sound : Sound own' (refs S'.proc) S'
  proc : ∃ ofile, S'.proc = update S.proc i ((S.proc i).withFiles ofile)
  initproc : S'.initproc = S.initproc
  loc : Local (Owner.FiledOr (S.proc i).pagetable) own own' S.mem S'.mem

theorem Filed.same (h : Sound own' (refs S.proc) S') (hs : Filing own own' S S') :
    Filed own own' i S S' := by
  refine ⟨?_, ⟨(S.proc i).ofile, ?_⟩, hs.initproc, hs.loc.mono fun o => .inl⟩
  · rwa [hs.proc]
  · rw [hs.proc, Proc.withFiles_self, update_eq_self]

theorem Sound.touches (h : Sound own cnt S) (ht : Touches M own S.mem m')
    (hM : ∀ o, M o → o.Data) (hpipe : ¬ M .pipe) : Sound own cnt { S with mem := m' } :=
  ⟨h.procs.touches ht hM, h.files.other ht.isLocal hpipe fun _ => h.aligned⟩

variable {fdarray : Nat}

theorem copyFds_spec {r n tf fd0 fd1 : Nat} (h : Image own m r n tf) (ht : Tables own m) :
    Wp E (copyFds r fdarray fd0 fd1) m fun _ m' => Touches (Owner.User r) own m m' := by
  rw [copyFds]
  refine (h.copyout ht _ _).bind ?_
  intro copied m1 ht1
  rw [wp_ite]
  split_ifs
  · exact ht1
  have h1 := h.touches ht1 ht fun o => Owner.User.data
  have htab : Tables own m1 := ht.congr fun q r path hq => ht1.page q (ht.pool hq).1 (by
    rintro ⟨k, hk⟩
    rw [hq] at hk
    cases hk)
  exact (h1.copyout htab _ _).mono fun _ _ ht2 => ht1.trans ht2

section

variable {own1 : Nat → Owner} (h : Sound own1 (more (more (refs S.proc) f) g) S')
include h

theorem closeNew_spec (hproc : S'.proc = S.proc) (hinit : S'.initproc = S.initproc)
    (hl : Local (Owner.FiledOr (S.proc i).pagetable) own own1 S.mem S'.mem) :
    Wp E (do fileclose f; fileclose g; pure false) S' fun _ S' => ∃ own', Filed own own' i S S' := by
  refine closeBoth_spec h fun own2 S2 h2 hs2 => ?_
  refine ⟨own2, ?_, ⟨(S.proc i).ofile, ?_⟩, hs2.initproc.trans hinit,
    hl.trans (hs2.loc.mono fun o => .inl)⟩
  · rwa [hs2.proc, hproc]
  · rw [hs2.proc, hproc, Proc.withFiles_self, update_eq_self]

theorem pipeFds_spec {fd0 fd1 : Fin NOFILE} (hs : Filing own own1 S S')
    (hi : (S.proc i).pagetable ≠ 0) (hfd0 : (S.proc i).ofile fd0 = none)
    (hfd1 : ((S.proc i).setFd fd0 (some f)).ofile fd1 = none) :
    Wp E (pipeFds i fdarray f g fd0 fd1) { S' with
        proc := update S.proc i (((S.proc i).setFd fd0 (some f)).setFd fd1 (some g)) }
      fun _ S' => ∃ own', Filed own own' i S S' := by
  have hne : fd0 ≠ fd1 := by
    rintro rfl
    simp at hfd1
  have hfd1' : (S.proc i).ofile fd1 = none := by
    simpa [hne.symm] using hfd1
  have hrefs : refs (update S.proc i (((S.proc i).setFd fd0 (some f)).setFd fd1
      (some g))) = more (more (refs S.proc) f) g := by
    have hnone : (update S.proc i ((S.proc i).setFd fd0 (some f)) i).ofile fd1 = none := by
      rwa [update_self]
    rw [← refs_setFd hfd0, ← refs_setFd hnone]
    simp only [update_self, update_idem]
  have hclear : ((((S.proc i).setFd fd0 (some f)).setFd fd1 (some g)).setFd fd0 none).setFd fd1
      none = S.proc i := by
    rw [Proc.setFd_comm _ hne.symm, Proc.setFd_setFd, Proc.setFd_setFd, Proc.setFd_self _ hfd0,
      Proc.setFd_self _ hfd1']
  have hp : Procs own1 S'.mem S.proc := hs.proc ▸ h.procs
  rw [pipeFds, wp_bind, wp_get, wp_bind, wp_onMem]
  simp only [update_self]
  refine (copyFds_spec (hp.image i hi) hp.heap.tables).mono ?_
  intro copied m' ht
  have h' : Sound own1 (more (more (refs S.proc) f) g) { S' with mem := m' } := by
    refine h.touches ht (fun o => Owner.User.data) ?_
    rintro ⟨k, hk⟩
    cases hk
  have hp' : Procs own1 m' S.proc := hs.proc ▸ h'.procs
  have hl' : Local (Owner.FiledOr (S.proc i).pagetable) own own1 S.mem m' :=
    (hs.loc.mono fun o => .inl).trans (ht.isLocal.mono fun o => .inr)
  cases copied with
  | true =>
    refine ⟨own1, ⟨hp'.updated rfl rfl rfl, ?_⟩, ⟨_, rfl⟩, hs.initproc, hl'⟩
    rw [hrefs]
    exact h'.files
  | false =>
    rw [if_pos rfl, wp_bind, wp_clearFd, wp_bind, wp_clearFd]
    simp only [update_self, update_idem, hclear, update_eq_self]
    have hsound : Sound own1 (more (more (refs S.proc) f) g)
        { S' with mem := m', proc := S.proc } := ⟨hp', h'.files⟩
    exact closeNew_spec hsound rfl hs.initproc hl'

end

variable (h : Sound own (refs S.proc) S)
include h

theorem sysPipe_spec (hi : (S.proc i).pagetable ≠ 0) :
    Wp E (sysPipe i fdarray) S fun _ S' => ∃ own', Filed own own' i S S' := by
  rw [sysPipe]
  refine (pipealloc_spec h).bind ?_
  rintro (_ | ⟨f, g⟩) S1 ⟨own1, hs1, h1⟩
  · exact ⟨own1, .same h1 hs1⟩
  have hproc := hs1.proc
  have hl1 : Local (Owner.FiledOr (S.proc i).pagetable) own own1 S.mem S1.mem :=
    hs1.loc.mono fun o => .inl
  have hp1 : Procs own1 S1.mem S.proc := hproc ▸ h1.procs
  simp only at h1 ⊢
  rw [wp_bind]
  apply wp_fdalloc
  · exact closeNew_spec h1 hproc hs1.initproc hl1
  intro fd0 hfd0
  rw [hproc] at hfd0 ⊢
  rw [wp_bind]
  apply wp_fdalloc
  · rw [wp_bind, wp_clearFd]
    simp only [update_self, update_idem, Proc.setFd_setFd, Proc.setFd_self _ hfd0, update_eq_self]
    exact closeNew_spec ⟨hp1, h1.files⟩ rfl hs1.initproc hl1
  intro fd1 hfd1
  simp only [update_self, update_idem] at hfd1 ⊢
  exact pipeFds_spec h1 hs1 hi hfd0 hfd1

theorem sysClose_spec {fd : Nat} :
    Wp E (sysClose i fd) S fun _ S' => ∃ own', Filed own own' i S S' := by
  have hsame : ∃ own', Filed own own' i S S := ⟨own, .same h ⟨rfl, rfl, .refl⟩⟩
  rw [sysClose]
  split_ifs with hfd
  · rw [wp_bind, wp_get]
    cases hf : (S.proc i).ofile ⟨fd, hfd⟩ with
    | none => exact hsame
    | some f =>
      rw [← refs_clearFd hf] at h
      simp only [wp_bind, wp_clearFd]
      refine (fileclose_spec (h.setProc ((S.proc i).setFd ⟨fd, hfd⟩ none) rfl rfl rfl)).mono ?_
      rintro _ S' ⟨own', h', hs⟩
      refine ⟨own', ?_, ⟨_, hs.proc⟩, hs.initproc, hs.loc.mono fun o => .inl⟩
      rwa [hs.proc]
  · exact hsame

/-- The loop of `exit` closes the files one after the other. -/
theorem closeFiles_spec {l : List (Fin NOFILE)} :
    Wp E (closeFiles i l) S fun _ S' => ∃ own', Sound own' (refs S'.proc) S' ∧
      S'.proc = update S.proc i ((S.proc i).withFiles
        fun fd => if fd ∈ l then none else (S.proc i).ofile fd) ∧
      S'.initproc = S.initproc ∧ Local Owner.Filed own own' S.mem S'.mem := by
  induction l generalizing own S with
  | nil =>
    refine ⟨own, h, ?_, rfl, .refl⟩
    simp only [not_mem_nil, if_false, Proc.withFiles_self, update_eq_self]
  | cons fd l ih =>
    rw [closeFiles, wp_bind, wp_get]
    cases hf : (S.proc i).ofile fd with
    | none =>
      refine (ih h).mono ?_
      rintro _ S' ⟨own', h', hproc, hinit, hl⟩
      refine ⟨own', h', hproc.trans ?_, hinit, hl⟩
      congr 2
      funext fd'
      by_cases heq : fd' = fd
      · simp [heq, hf]
      · simp [heq]
    | some f =>
      rw [← refs_clearFd hf] at h
      simp only [wp_bind]
      refine (fileclose_spec h).mono ?_
      rintro _ S1 ⟨own1, h1, hs1⟩
      have hproc1 := hs1.proc
      rw [← hproc1] at h1
      rw [wp_clearFd]
      have h2 := h1.setProc (i := i) ((S1.proc i).setFd fd none) rfl rfl rfl
      refine (ih h2).mono ?_
      rintro _ S' ⟨own', h', hproc, hinit, hl⟩
      refine ⟨own', h', hproc.trans ?_, hinit.trans hs1.initproc, hs1.loc.trans hl⟩
      simp only [hproc1, update_self, update_idem, Proc.setFd_withFiles, Proc.setFd_ofile]
      congr 2
      funext fd'
      by_cases heq : fd' = fd
      all_goals simp [heq]

/-- The loop of `fork` shares the files. -/
theorem dupFiles_spec {np : Fin NPROC} {l : List (Fin NOFILE)} (hne : np ≠ i) (hl : l.Nodup)
    (hnone : ∀ fd ∈ l, (S.proc np).ofile fd = none) :
    Wp E (dupFiles i np l) S fun _ S' => ∃ file',
      S' = { S with file := file', proc := update S.proc np ((S.proc np).withFiles
        fun fd => if fd ∈ l then (S.proc i).ofile fd else (S.proc np).ofile fd) } ∧
      Sound own (refs S'.proc) S' ∧ ∀ f, file' f = { S.file f with ref := (file' f).ref } := by
  induction l generalizing S with
  | nil =>
    refine ⟨S.file, ?_, h, fun _ => rfl⟩
    simp only [not_mem_nil, if_false, Proc.withFiles_self, update_eq_self]
  | cons fd l ih =>
    obtain ⟨hfd, hl⟩ := List.nodup_cons.mp hl
    rw [dupFiles, wp_bind, wp_get]
    cases hf : (S.proc i).ofile fd with
    | none =>
      refine (ih h hl fun fd' hfd' => hnone fd' (.tail _ hfd')).mono ?_
      rintro _ S' ⟨file', hS, h', hfile⟩
      refine ⟨file', hS.trans ?_, h', hfile⟩
      congr 3
      funext fd'
      by_cases heq : fd' = fd
      · simp [heq, hf, hnone]
      · simp [heq]
    | some f =>
      simp only [wp_bind, wp_setFd]
      refine (filedup_spec h (refs_pos hf)).mono ?_
      rintro _ S1 ⟨rfl, h1⟩
      have h2 := h1.setProc (i := np) ((S.proc np).setFd fd (some f)) rfl rfl rfl
      rw [← refs_setFd (hnone fd (.head _))] at h2
      have hother : ∀ fd' ∈ l, fd' ≠ fd := fun fd' hfd' heq => hfd (heq ▸ hfd')
      refine (ih h2 hl fun fd' hfd' => ?_).mono ?_
      · simpa [hother fd' hfd'] using hnone fd' (.tail _ hfd')
      rintro _ S' ⟨file', hS, h', hfile⟩
      refine ⟨file', hS.trans ?_, h', fun g => ?_⟩
      · simp only [update_self, update_idem, update_of_ne hne.symm,
          Proc.setFd_withFiles, Proc.setFd_ofile]
        congr 3
        funext fd'
        by_cases heq : fd' = fd
        · simp [heq, hfd, hf]
        · simp [heq]
      · rw [hfile g]
        by_cases hg : g = f
        all_goals simp [hg]

end

end Xv6.Vm
