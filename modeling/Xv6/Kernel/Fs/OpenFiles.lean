import Xv6.Kernel.Fs.Balance

namespace Xv6.Fs

open Hoare Function Nat

def fdRef (o : Option (Fin NFILE)) (f : Fin NFILE) : Nat := if o = some f then 1 else 0

/-- How many descriptors of all processes hold file `f`. -/
def slots (s : State) (f : Fin NFILE) : Nat := ∑ p, ∑ fd, fdRef ((s.proc p).ofile fd) f

/-- Whether the write end or the read end of a pipe is open. -/
def Pipe.opened (x : Pipe) (w : Bool) : Bool := if w then x.writeopen else x.readopen

/-- The file is the write end or the read end of pipe `i`. -/
def File.IsEnd (x : File) (i : Nat) (w : Bool) : Prop :=
  x.type = .pipe ∧ x.pipe = i ∧ x.writable = w

/-- The open files and pipes; `d` counts the references to open files that no descriptor accounts
for. -/
structure Files (s : State) (d : Fin NFILE → Int) : Prop where
  refs : ∀ f, ((s.file f).ref : Int) = slots s f + d f
  closed : ∀ f, (s.file f).ref = 0 → (s.file f).type = .none
  made : ∀ f, (s.file f).type = .pipe → (s.file f).pipe < s.npipe
  single : ∀ f g i w, (s.file f).IsEnd i w → (s.file g).IsEnd i w → f = g
  ends : ∀ i, i < s.npipe → ∀ w, (s.pipe i).opened w = true ↔ ∃ f, (s.file f).IsEnd i w
  freed : ∀ i, i < s.npipe →
    (s.pipe i).freed = if (s.pipe i).opened false = true ∨ (s.pipe i).opened true = true then 0 else 1

/-- `z` more references to `f` than descriptors. -/
def owe (d : Fin NFILE → Int) (f : Fin NFILE) (z : Int) (g : Fin NFILE) : Int :=
  d g + if g = f then z else 0

variable {s s' s0 : State} {d d' : Fin NFILE → Int} {f g : Fin NFILE} {p q : Fin NPROC}
  {fd : Fin NOFILE}

section

variable (d : Fin NFILE → Int)

@[simp] theorem owe_owe (f : Fin NFILE) (y z : Int) : owe (owe d f y) f z = owe d f (y + z) := by
  funext g
  unfold owe
  split_ifs
  · ring
  · ring

@[simp] theorem owe_zero (f : Fin NFILE) : owe d f 0 = d := by
  funext g
  simp [owe]

theorem owe_comm (f g : Fin NFILE) (y z : Int) : owe (owe d f y) g z = owe (owe d g z) f y := by
  funext x
  unfold owe
  ring

end

theorem owe_one (f : Fin NFILE) (d : Fin NFILE → Int) : owe d f 1 g = d g + fdRef (some f) g := by
  unfold owe fdRef
  by_cases h : g = f
  · rw [if_pos h, if_pos (by rw [h])]
    rfl
  · rw [if_neg h, if_neg fun hh => h (Option.some.inj hh).symm]
    rfl

def State.setFd (s : State) (p : Fin NPROC) (fd : Fin NOFILE) (o : Option (Fin NFILE)) : State :=
  { s with
    proc := update s.proc p
      { s.proc p with ofile := update (s.proc p).ofile fd o } }

/-- File `f` has lost its last reference. -/
def State.closeF (s : State) (f : Fin NFILE) : State :=
  s.setF f { s.file f with ref := 0, type := .none }

theorem fileRefs_closeF (s : State) (f : Fin NFILE) (e : Fin NINODE) :
    fileRefs (s.closeF f) e + (s.file f).refTo e = fileRefs s e := by
  rw [State.closeF, fileRefs_setF, refTo_none rfl, Nat.add_zero]

theorem slots_setFd (o : Option (Fin NFILE)) (f : Fin NFILE) :
    slots (s.setFd p fd o) f + fdRef ((s.proc p).ofile fd) f = slots s f + fdRef o f := by
  have h1 := Counting.sum_update (fun x : Proc => ∑ fd, fdRef (x.ofile fd) f) s.proc p
    ⟨(s.proc p).used, (s.proc p).cwd, update (s.proc p).ofile fd o⟩
  have h2 := Counting.sum_update (fun o => fdRef o f) (s.proc p).ofile fd o
  unfold slots
  simp only [State.setFd] at h1 ⊢
  omega

theorem setFd_ofile_self (o : Option (Fin NFILE)) : ((s.setFd p fd o).proc p).ofile =
    update (s.proc p).ofile fd o := by
  simp [State.setFd]

theorem setFd_proc_of_ne (h : q ≠ p) (o : Option (Fin NFILE)) :
    (s.setFd p fd o).proc q = s.proc q := update_of_ne h ..

@[simp] theorem setFd_setFd (o o' : Option (Fin NFILE)) :
    (s.setFd p fd o).setFd p fd o' = s.setFd p fd o' := by
  simp [State.setFd]

theorem setFd_eq_self {o : Option (Fin NFILE)} (h : (s.proc p).ofile fd = o) :
    s.setFd p fd o = s := by
  simp [State.setFd, ← h]

theorem setFd_comm {fd' : Fin NOFILE} (h : fd ≠ fd') (o o' : Option (Fin NFILE)) :
    (s.setFd p fd o).setFd p fd' o' = (s.setFd p fd' o').setFd p fd o := by
  simp [State.setFd, update_comm h]

theorem setFd_sameProcs (o : Option (Fin NFILE)) : SameProcs s (s.setFd p fd o) := by
  intro q
  by_cases hq : q = p
  · subst hq
    simp [State.setFd]
  · rw [setFd_proc_of_ne hq]
    exact ⟨rfl, rfl⟩

theorem slots_congr (h : ∀ p, (s'.proc p).ofile = (s.proc p).ofile) : slots s' = slots s := by
  funext f
  unfold slots
  simp only [h]

theorem isEnd_base (x : File) (i : Nat) (w : Bool) : x.base.IsEnd i w ↔ x.IsEnd i w := Iff.rfl

variable {x : File}

namespace Files

variable (h : Files s d)
include h

theorem congr (hq : Quiet s s') : Files s' d := by
  have hend : ∀ f i w, (s'.file f).IsEnd i w ↔ (s.file f).IsEnd i w := by
    intro f i w
    rw [← isEnd_base, hq.file f, isEnd_base]
  have hofile : ∀ p, (s'.proc p).ofile = (s.proc p).ofile := fun p => by rw [hq.proc]
  refine ⟨fun f => ?_, fun f hf => ?_, fun f hf => ?_, fun f g i w hf hg => ?_, fun i hi w => ?_,
    fun i hi => ?_⟩
  · rw [(hq.same f).1, slots_congr hofile]
    exact h.refs f
  · obtain ⟨hr, ht, -⟩ := hq.same f
    rw [ht]
    exact h.closed f (hr ▸ hf)
  · obtain ⟨-, ht, hp, -⟩ := hq.same f
    rw [hp, hq.npipe]
    exact h.made f (ht ▸ hf)
  · exact h.single f g i w ((hend f i w).mp hf) ((hend g i w).mp hg)
  · rw [hq.npipe] at hi
    simp only [hq.pipe, hend]
    exact h.ends i hi w
  · rw [hq.npipe] at hi
    rw [hq.pipe]
    exact h.freed i hi

/-- A file is replaced that is the same end of a pipe before and after. -/
theorem setF (hclosed : x.ref = 0 → x.type = .none)
    (hend : ∀ i w, x.IsEnd i w ↔ (s.file f).IsEnd i w) :
    Files (s.setF f x) (owe d f (x.ref - (s.file f).ref)) := by
  have hends : ∀ g i w, ((s.setF f x).file g).IsEnd i w ↔ (s.file g).IsEnd i w := by
    intro g i w
    by_cases hg : g = f
    · rw [hg, setF_file_self]
      exact hend i w
    · rw [setF_file_of_ne hg]
  refine ⟨fun g => ?_, fun g => ?_, fun g hg => ?_, fun g k i w hg hk => ?_, fun i hi w => ?_,
    h.freed⟩
  · have hr := h.refs g
    change (((s.setF f x).file g).ref : Int) = slots s g + _
    unfold owe
    by_cases hg : g = f
    · subst hg
      rw [setF_file_self, if_pos rfl]
      omega
    · rw [setF_file_of_ne hg, if_neg hg]
      omega
  · by_cases hg : g = f
    · rw [hg, setF_file_self]
      exact hclosed
    · rw [setF_file_of_ne hg]
      exact h.closed g
  · have hs := (hends g _ _).mp ⟨hg, rfl, rfl⟩
    have := h.made g hs.1
    rw [hs.2.1] at this
    exact this
  · exact h.single g k i w ((hends g i w).mp hg) ((hends k i w).mp hk)
  · simp only [hends]
    exact h.ends i hi w

theorem setFd (o : Option (Fin NFILE))
    (hd : ∀ f, d' f + fdRef o f = d f + fdRef ((s.proc p).ofile fd) f) :
    Files (s.setFd p fd o) d' := by
  refine ⟨fun f => ?_, h.closed, h.made, h.single, h.ends, h.freed⟩
  have h1 : slots (s.setFd p fd o) f + _ = _ := slots_setFd o f
  have h2 := h.refs f
  have h3 := hd f
  change ((s.file f).ref : Int) = _
  omega

theorem closeFile (h1 : (s.file f).ref = 1) (htype : (s.file f).type ≠ .pipe) :
    Files (s.closeF f) (owe d f (-1)) := by
  have hs := h.setF (f := f) (x := { s.file f with ref := 0, type := .none }) (fun _ => rfl)
    fun i w => ⟨fun hx => absurd hx.1 (by simp), fun hx => absurd hx.1 htype⟩
  rw [h1] at hs
  exact hs

end Files

/-- What `pipeclose` does to the pipe. -/
def Pipe.close (x : Pipe) (w : Bool) : Pipe :=
  let x := if w then { x with writeopen := false } else { x with readopen := false }
  if x.readopen = false ∧ x.writeopen = false then { x with freed := x.freed + 1 } else x

variable {w : Bool}

theorem wp_pipeclose {E : Stop → Prop} {i : Nat} {Q : PUnit → State → Prop} :
    Wp E (pipeclose i w) s Q ↔
      Q ⟨⟩ { s with pipe := update s.pipe i ((s.pipe i).close w) } := Iff.rfl

theorem Pipe.close_opened (x : Pipe) (w v : Bool) :
    (x.close w).opened v = if v = w then false else x.opened v := by
  obtain ⟨r, wr, n⟩ := x
  cases r <;> cases wr <;> cases w <;> cases v <;> rfl

theorem Pipe.close_freed {x : Pipe} (h0 : x.freed = 0) :
    (x.close w).freed =
      if (x.close w).opened false = true ∨ (x.close w).opened true = true then 0 else 1 := by
  obtain ⟨r, wr, n⟩ := x
  cases h0
  cases r <;> cases wr <;> cases w <;> rfl

variable {f0 f1 : Fin NFILE} {x0 x1 : File}

namespace Files

theorem closeEnd {i : Nat} (h : Files s d) (h1 : (s.file f).ref = 1) (hf : (s.file f).IsEnd i w) :
    Files { s.closeF f with pipe := update s.pipe i ((s.pipe i).close w) } (owe d f (-1)) := by
  have hgone : ∀ g, g ≠ f → (s.closeF f).file g = s.file g := fun g hg => setF_file_of_ne hg _
  have hself : (s.closeF f).file f = { s.file f with ref := 0, type := .none } := setF_file_self _
  have hends : ∀ g j v, ((s.closeF f).file g).IsEnd j v ↔ (s.file g).IsEnd j v ∧ g ≠ f := by
    intro g j v
    by_cases hg : g = f
    · rw [hg, hself]
      exact ⟨fun hx => absurd hx.1 (by simp), fun hx => absurd rfl hx.2⟩
    · rw [hgone g hg]
      exact ⟨fun hx => ⟨hx, hg⟩, fun hx => hx.1⟩
  have hi : i < s.npipe := hf.2.1 ▸ h.made f hf.1
  have hopen : (s.pipe i).opened w = true := (h.ends i hi w).mpr ⟨f, hf⟩
  have h0 : (s.pipe i).freed = 0 := by
    rw [h.freed i hi]
    cases w <;> simp [hopen]
  refine ⟨fun g => ?_, fun g hg => ?_, fun g hg => ?_, fun g k j v hg hk => ?_, fun j hj v => ?_,
    fun j hj => ?_⟩
  · have hr := h.refs g
    change (((s.closeF f).file g).ref : Int) = slots s g + _
    unfold owe
    by_cases hg : g = f
    · subst hg
      rw [hself, if_pos rfl]
      simp only [cast_zero]
      omega
    · rw [hgone g hg, if_neg hg]
      omega
  · by_cases hgf : g = f
    · exact (congrArg (fun g => ((s.closeF f).file g).type) hgf).trans (congrArg File.type hself)
    · exact (congrArg File.type (hgone g hgf)).trans
        (h.closed g ((congrArg File.ref (hgone g hgf)).symm.trans hg))
  · have hs := ((hends g _ _).mp ⟨hg, rfl, rfl⟩).1
    have := h.made g hs.1
    rw [hs.2.1] at this
    exact this
  · exact h.single g k j v ((hends g j v).mp hg).1 ((hends k j v).mp hk).1
  · simp only [hends]
    by_cases hji : j = i
    · subst hji
      rw [update_self, Pipe.close_opened]
      by_cases hvw : v = w
      · subst hvw
        rw [if_pos rfl]
        refine ⟨fun hx => absurd hx (by simp), ?_⟩
        rintro ⟨g, hg, hgf⟩
        exact absurd (h.single g f _ v hg hf) hgf
      · rw [if_neg hvw, h.ends j hi v]
        refine exists_congr fun g => ⟨fun hg => ⟨hg, ?_⟩, fun hg => hg.1⟩
        intro hgf
        rw [hgf] at hg
        exact hvw (hg.2.2.symm.trans hf.2.2)
    · rw [update_of_ne hji, h.ends j hj v]
      refine exists_congr fun g => ⟨fun hg => ⟨hg, ?_⟩, fun hg => hg.1⟩
      intro hgf
      rw [hgf] at hg
      exact hji (hg.2.1.symm.trans hf.2.1)
  · by_cases hji : j = i
    · subst hji
      simp only [update_self]
      exact Pipe.close_freed h0
    · simp only [update_of_ne hji]
      exact h.freed j hj

theorem newPipe (h : Files s d) (hne : f0 ≠ f1) (h0 : (s.file f0).type = .none)
    (h1 : (s.file f1).type = .none) (hx0 : x0.IsEnd s.npipe false) (hx1 : x1.IsEnd s.npipe true)
    (hr0 : x0.ref = (s.file f0).ref) (hr1 : x1.ref = (s.file f1).ref) (hp0 : x0.ref ≠ 0)
    (hp1 : x1.ref ≠ 0) :
    Files { (s.setF f0 x0).setF f1 x1 with
      pipe := update s.pipe s.npipe ⟨true, true, 0⟩
      npipe := s.npipe + 1 } d := by
  have hself : ((s.setF f0 x0).setF f1 x1).file f0 = x0 := by
    rw [setF_file_of_ne hne, setF_file_self]
  have hother : ∀ g, g ≠ f0 → g ≠ f1 → ((s.setF f0 x0).setF f1 x1).file g = s.file g := by
    intro g hg0 hg1
    rw [setF_file_of_ne hg1, setF_file_of_ne hg0]
  have hends : ∀ g i w, (((s.setF f0 x0).setF f1 x1).file g).IsEnd i w →
      i < s.npipe ∧ (s.file g).IsEnd i w ∨ i = s.npipe ∧ g = if w then f1 else f0 := by
    intro g i w hg
    by_cases hg1 : g = f1
    · subst hg1
      rw [setF_file_self] at hg
      exact .inr ⟨hg.2.1.symm.trans hx1.2.1, by rw [← hg.2.2, hx1.2.2, if_pos rfl]⟩
    by_cases hg0 : g = f0
    · subst hg0
      rw [hself] at hg
      refine .inr ⟨hg.2.1.symm.trans hx0.2.1, ?_⟩
      rw [← hg.2.2, hx0.2.2]
      rfl
    · rw [hother g hg0 hg1] at hg
      exact .inl ⟨hg.2.1 ▸ h.made g hg.1, hg⟩
  have hold : ∀ g i w, (s.file g).IsEnd i w → ((s.setF f0 x0).setF f1 x1).file g = s.file g := by
    intro g i w hg
    apply hother
    · intro hgf
      rw [hgf, File.IsEnd, h0] at hg
      exact absurd hg.1 (by simp)
    · intro hgf
      rw [hgf, File.IsEnd, h1] at hg
      exact absurd hg.1 (by simp)
  refine ⟨fun g => ?_, fun g hg => ?_, fun g hg => ?_, fun g k i w hg hk => ?_, fun i hi w => ?_,
    fun i hi => ?_⟩
  · change ((((s.setF f0 x0).setF f1 x1).file g).ref : Int) = slots s g + d g
    rw [← h.refs g]
    by_cases hg1 : g = f1
    · subst hg1
      rw [setF_file_self, hr1]
    · by_cases hg0 : g = f0
      · subst hg0
        rw [hself, hr0]
      · rw [hother g hg0 hg1]
  · change (((s.setF f0 x0).setF f1 x1).file g).ref = 0 at hg
    change (((s.setF f0 x0).setF f1 x1).file g).type = .none
    by_cases hg1 : g = f1
    · subst hg1
      rw [setF_file_self] at hg
      exact absurd hg hp1
    by_cases hg0 : g = f0
    · subst hg0
      rw [hself] at hg
      exact absurd hg hp0
    · rw [hother g hg0 hg1] at hg ⊢
      exact h.closed g hg
  · change (((s.setF f0 x0).setF f1 x1).file g).pipe < s.npipe + 1
    cases hends g _ _ ⟨hg, rfl, rfl⟩ with
    | inl hx => exact lt_succ_of_lt hx.1
    | inr hx => exact lt_succ_of_le hx.1.le
  · cases hends g i w hg with
    | inl hx =>
      cases hends k i w hk with
      | inl hy => exact h.single g k i w hx.2 hy.2
      | inr hy => exact absurd hx.1 (by rw [hy.1]; exact Nat.lt_irrefl _)
    | inr hx =>
      cases hends k i w hk with
      | inl hy => exact absurd hy.1 (by rw [hx.1]; exact Nat.lt_irrefl _)
      | inr hy => rw [hx.2, hy.2]
  · by_cases hin : i = s.npipe
    · subst hin
      have hopened : (⟨true, true, 0⟩ : Pipe).opened w = true := by cases w <;> rfl
      simp only [update_self, hopened, true_iff]
      cases w with
      | false => exact ⟨f0, by rw [hself]; exact hx0⟩
      | true => exact ⟨f1, by rw [setF_file_self]; exact hx1⟩
    have hi : i < s.npipe := by
      have : i < s.npipe + 1 := hi
      omega
    simp only [update_of_ne hin]
    rw [h.ends i hi w]
    constructor
    · rintro ⟨g, hg⟩
      exact ⟨g, by rw [hold g i w hg]; exact hg⟩
    · rintro ⟨g, hg⟩
      cases hends g i w hg with
      | inl hx => exact ⟨g, hx.2⟩
      | inr hx => exact absurd hx.1 hin
  · by_cases hin : i = s.npipe
    · subst hin
      simp only [update_self]
      rfl
    · have hi : i < s.npipe := by
        have : i < s.npipe + 1 := hi
        omega
      simp only [update_of_ne hin]
      exact h.freed i hi

end Files

section Ledger

variable {sb : Superblock} {t t' : Fin NINODE → Nat} {n : Nat} {R R' L : List (Fin NINODE)}
  {e : Fin NINODE}

section

variable (h : Books sb s t n s R L) (hi : s'.inode = s.inode) (ho : s'.outstanding = s.outstanding)
  (hh : s'.hist = s.hist)
include h hi ho hh

theorem Books.retable
    (hrefs : ∀ e, fileRefs s' e + t' e + R'.count e = fileRefs s e + t e + R.count e)
    (hcover : ∀ e, 0 < fileRefs s' e + t' e → 0 < fileRefs s e + t e ∨ e ∈ L) :
    Books sb s' t' n s' R' L where
  quiet := .refl s'
  outstanding := ho.trans h.outstanding
  bracketed := by
    rw [hh]
    exact h.bracketed
  refs e := by
    rw [hi, h.refs e, hrefs e]
  locks e := by
    rw [hi]
    exact h.locks e
  nodup := h.nodup
  held e he := by
    rw [hi, hrefs e]
    exact h.held e he
  kept e _ := .refl sb s' e
  ready := by
    cases h.ready with
    | inl hr =>
      refine .inl fun e he => ?_
      rw [hi]
      exact (hcover e he).elim (hr e) fun hmem => (h.held e hmem).1
    | inr hr =>
      refine .inr ⟨hr.1, rfl, ?_⟩
      rw [hi]
      exact hr.2.only

theorem Books.sameRefs (hsame : ∀ e, fileRefs s' e = fileRefs s e) : Books sb s' t n s' R L := by
  refine h.retable hi ho hh (fun e => ?_) fun e he => ?_
  · rw [hsame e]
  · rw [hsame e] at he
    exact .inl he

end

/-- Everything that counts references, at some point of a system call. -/
structure Ledger (sb : Superblock) (s : State) (t : Fin NINODE → Nat) (n : Nat)
    (R L : List (Fin NINODE)) (d : Fin NFILE → Int) : Prop where
  books : Books sb s t n s R L
  files : Files s d

theorem Ledger.quiet (h : Ledger sb s t n R L d) {n' : Nat} {L' : List (Fin NINODE)}
    (hs : Books sb s t' n' s' R' L') : Ledger sb s' t' n' R' L' d :=
  ⟨hs.rebase, h.files.congr hs.quiet⟩

/-- No inode or device was opened, and what is still referred to is the same inode. -/
structure Trail (sb : Superblock) (t : Fin NINODE → Nat) (s s' : State) : Prop where
  less : ∀ e, fileRefs s' e ≤ fileRefs s e
  same : ∀ e, 0 < fileRefs s' e + t e → SameInode sb s s' e
  device : ∀ f, (s'.file f).type = .device →
    (s.file f).type = .device ∧ (s'.file f).ip = (s.file f).ip

theorem Trail.of_eq (hi : s'.inode = s.inode) (hd : s'.disk = s.disk)
    (hf : ∀ e, fileRefs s' e = fileRefs s e) (hdev : ∀ f, (s'.file f).type = .device →
      (s.file f).type = .device ∧ (s'.file f).ip = (s.file f).ip) : Trail sb t s s' :=
  ⟨fun e => (hf e).le, fun e _ => .of_eq hi hd e, hdev⟩

theorem Trail.of_procs (hi : s'.inode = s.inode) (hd : s'.disk = s.disk) (hf : s'.file = s.file) :
    Trail sb t s s' := by
  refine .of_eq hi hd (fileRefs_congr hf) fun f h => ?_
  rw [hf] at h ⊢
  exact ⟨h, rfl⟩

theorem Trail.trans {s'' : State} (h : Trail sb t s s') (h' : Trail sb t s' s'') :
    Trail sb t s s'' where
  less e := (h'.less e).trans (h.less e)
  same e he := by
    have hless := h'.less e
    exact (h.same e (by omega)).trans (h'.same e he)
  device f hf := by
    obtain ⟨h1, hip⟩ := h'.device f hf
    obtain ⟨h2, hip'⟩ := h.device f h1
    exact ⟨h2, hip.trans hip'⟩

theorem Trail.mono (h : Trail sb t s s') (ht : ∀ e, t' e ≤ t e) : Trail sb t' s s' :=
  ⟨h.less, fun e he => h.same e (Nat.lt_of_lt_of_le he (Nat.add_le_add_left (ht e) _)), h.device⟩

theorem Books.trail (h : Books sb s t n s' R L) : Trail sb t s s' where
  less e := by rw [h.quiet.fileRefs]
  same e he := by
    rw [h.quiet.fileRefs] at he
    exact h.same he
  device f hf := by
    obtain ⟨-, htype, -, hip⟩ := h.quiet.same f
    rw [htype] at hf
    exact ⟨hf, hip⟩

theorem device_setF (hx : x.type = .device → (s.file f).type = .device ∧ x.ip = (s.file f).ip)
    (g : Fin NFILE) (hg : ((s.setF f x).file g).type = .device) :
    (s.file g).type = .device ∧ ((s.setF f x).file g).ip = (s.file g).ip := by
  by_cases hgf : g = f
  · subst hgf
    rw [setF_file_self] at hg ⊢
    exact hx hg
  · rw [setF_file_of_ne hgf] at hg ⊢
    exact ⟨hg, rfl⟩

theorem refTo_setF_same (ht : x.type = (s.file f).type) (hip : x.ip = (s.file f).ip)
    (e : Fin NINODE) : fileRefs (s.setF f x) e = fileRefs s e := by
  have h := fileRefs_setF (s := s) (f := f) x e
  have hx : x.refTo e = (s.file f).refTo e := by
    unfold File.refTo
    rw [ht, hip]
  omega

section

variable (h : Ledger sb s t n R L d)
include h

theorem Ledger.setRef {k : Nat} {z : Int} (hk : k = 0 → (s.file f).type = .none)
    (hz : (k : Int) = (s.file f).ref + z) :
    Ledger sb (s.setF f { s.file f with ref := k }) t n R L (owe d f z) := by
  constructor
  · have hf := refTo_setF_same (s := s) (f := f) (x := { s.file f with ref := k }) rfl rfl
    exact h.books.sameRefs rfl rfl rfl hf
  · have hs := h.files.setF (f := f) (x := { s.file f with ref := k }) hk fun _ _ => Iff.rfl
    have hdiff : (k : Int) - (s.file f).ref = z := by omega
    rw [← hdiff]
    exact hs

theorem Ledger.filealloc :
    Wp Any filealloc s fun r s' =>
      match r with
      | none => s' = s
      | some f => Ledger sb s' t n R L (owe d f 1) ∧ s' = s.setF f { s.file f with ref := 1 } ∧
          (s.file f).ref = 0 ∧ (s.file f).type = .none ∧ Trail sb t s s' := by
  simp only [Fs.filealloc, wp_bind, wp_get]
  split
  · next f hfind =>
    have h0 : (s.file f).ref = 0 := by simpa using List.find?_some hfind
    rw [wp_bind, wp_setFile, wp_pure]
    have hf := refTo_setF_same (s := s) (f := f) (x := { s.file f with ref := 1 }) rfl rfl
    refine ⟨h.setRef (fun h1 => absurd h1 Nat.one_ne_zero) ?_, rfl, h0, h.files.closed f h0,
      .of_eq rfl rfl hf (device_setF fun hd => ⟨hd, rfl⟩)⟩
    rw [h0]
    rfl
  · rfl

theorem Ledger.filedup (f : Fin NFILE) :
    Wp Any (filedup f) s fun _ s' =>
      Ledger sb s' t n R L (owe d f 1) ∧ s'.proc = s.proc ∧ Trail sb t s s' := by
  have hf := refTo_setF_same (s := s) (f := f) (x := { s.file f with ref := (s.file f).ref + 1 })
    rfl rfl
  simp only [Fs.filedup, wp_bind, wp_get, wp_ite, wp_panic, wp_setFile, Any]
  split_ifs with h0
  exact ⟨h.setRef (fun h1 => absurd h1 (succ_ne_zero _)) (cast_succ _), rfl,
    .of_eq rfl rfl hf (device_setF fun hd => ⟨hd, rfl⟩)⟩

/-- `fileclose` drops one reference to a file; it may be called inside of an operation only for a
file that is not in use yet. -/
theorem Ledger.fileclose (hn : n = 0 ∧ L = [] ∨ (s.file f).type = .none) :
    Wp Any (fileclose sb f) s fun _ s' =>
      Ledger sb s' t n R L (owe d f (-1)) ∧ s'.proc = s.proc ∧ Trail sb t s s' := by
  have hrefs := fileRefs_closeF s f
  have hnew := device_setF (s := s) (f := f) (x := { s.file f with ref := 0, type := .none })
    fun hd => by cases hd
  simp only [Fs.fileclose, wp_bind, wp_get, wp_ite, wp_panic, wp_setFile, wp_pure, Any]
  split_ifs with h1 h2 hpipe h3
  · have hf := refTo_setF_same (s := s) (f := f) (x := { s.file f with ref := (s.file f).ref - 1 })
      rfl rfl
    exact ⟨h.setRef (by omega) (by omega), rfl, .of_eq rfl rfl hf (device_setF fun hd => ⟨hd, rfl⟩)⟩
  · have href : (s.file f).ref = 1 := by omega
    have hclose := h.files.closeEnd href ⟨hpipe, rfl, rfl⟩
    change Wp _ (pipeclose _ _) (s.closeF f) _
    rw [wp_pipeclose]
    have hsame : ∀ (x : Nat → Pipe) e, fileRefs { s.closeF f with pipe := x } e = fileRefs s e := by
      intro x e
      have h0 : (s.file f).refTo e = 0 := if_neg fun hh => by simp [hpipe] at hh
      have hr := hrefs e
      rw [h0, Nat.add_zero] at hr
      exact (fileRefs_congr rfl e).trans hr
    exact ⟨⟨h.books.sameRefs rfl rfl rfl (hsame _), hclose⟩, rfl, .of_eq rfl rfl (hsame _) hnew⟩
  · have href : (s.file f).ref = 1 := by omega
    obtain ⟨rfl, rfl⟩ : n = 0 ∧ L = [] := by
      cases hn with
      | inl hn => exact hn
      | inr hn => simp [hn] at h3
    have hclosed : Ledger sb (s.closeF f) t 0 ((s.file f).ip :: R) [] (owe d f (-1)) := by
      refine ⟨h.books.retable rfl rfl rfl (fun e => ?_) fun e he => ?_,
        h.files.closeFile href hpipe⟩
      · have hr := hrefs e
        have hh := hold_eq_refTo h3 t e
        have hc := Books.hold_count t R (s.file f).ip e
        omega
      · have hr := hrefs e
        exact .inl (by omega)
    change Wp _ _ (s.closeF f) _
    refine hclosed.books.beginOp.mono ?_
    intro _ s1 h1
    refine (h1.iput fun he => by cases he).mono ?_
    intro _ s2 h2
    refine h2.endOp.mono ?_
    intro _ s3 h3
    refine ⟨hclosed.quiet h3, h3.quiet.proc, Trail.trans ⟨fun e => ?_, fun e _ => ?_, hnew⟩ h3.trail⟩
    · change fileRefs (s.closeF f) e ≤ _
      have hr := hrefs e
      omega
    · exact .of_eq rfl rfl e
  · have href : (s.file f).ref = 1 := by omega
    have hsame : ∀ e, fileRefs (s.closeF f) e = fileRefs s e := by
      intro e
      have h0 : (s.file f).refTo e = 0 := if_neg fun hh => h3 hh.1
      rw [← hrefs e, h0, Nat.add_zero]
    exact ⟨⟨h.books.sameRefs rfl rfl rfl hsame, h.files.closeFile href hpipe⟩, rfl,
      .of_eq rfl rfl hsame hnew⟩

section

variable (hne : f0 ≠ f1) (h0 : (s.file f0).type = .none) (h1 : (s.file f1).type = .none)
include hne h0 h1

omit h in
theorem fileRefs_newPipe (hx0 : x0.type = .pipe) (hx1 : x1.type = .pipe) (e : Fin NINODE) :
    fileRefs ((s.setF f0 x0).setF f1 x1) e = fileRefs s e := by
  have hpipe : ∀ {x : File}, x.type = .pipe → x.refTo e = 0 := by
    intro x hx
    refine if_neg fun hh => ?_
    rw [hx] at hh
    simp at hh
  have hs0 := fileRefs_setF (s := s) (f := f0) x0 e
  have hs1 := fileRefs_setF (s := s.setF f0 x0) (f := f1) x1 e
  rw [hpipe hx0, refTo_none h0] at hs0
  rw [hpipe hx1, setF_file_of_ne hne.symm, refTo_none h1] at hs1
  omega

theorem Ledger.newPipe (hx0 : x0.IsEnd s.npipe false) (hx1 : x1.IsEnd s.npipe true)
    (hr0 : x0.ref = (s.file f0).ref) (hr1 : x1.ref = (s.file f1).ref) (hp0 : (s.file f0).ref ≠ 0)
    (hp1 : (s.file f1).ref ≠ 0) :
    Ledger sb { (s.setF f0 x0).setF f1 x1 with
      pipe := update s.pipe s.npipe ⟨true, true, 0⟩
      npipe := s.npipe + 1 } t n R L d := by
  refine ⟨?_, h.files.newPipe hne h0 h1 hx0 hx1 hr0 hr1 (hr0 ▸ hp0) (hr1 ▸ hp1)⟩
  have hsame := fileRefs_newPipe hne h0 h1 hx0.1 hx1.1
  exact h.books.sameRefs rfl rfl rfl fun e => (fileRefs_congr rfl e).trans (hsame e)

end

theorem Ledger.setFd (o : Option (Fin NFILE))
    (hd : ∀ f, d' f + fdRef o f = d f + fdRef ((s.proc p).ofile fd) f) :
    Ledger sb (s.setFd p fd o) t n R L d' :=
  ⟨h.books.sameRefs rfl rfl rfl fun _ => rfl, h.files.setFd o hd⟩

theorem Ledger.setProc {x : Proc} (hx : x.ofile = (s.proc p).ofile) :
    Ledger sb { s with proc := update s.proc p x } t n R L d := by
  refine ⟨h.books.sameRefs rfl rfl rfl fun _ => rfl, ?_, h.files.closed, h.files.made,
    h.files.single, h.files.ends, h.files.freed⟩
  intro f
  rw [slots_congr (s := s)]
  · exact h.files.refs f
  · intro q
    by_cases hq : q = p
    · subst hq
      simp only [update_self, hx]
    · simp only [update_of_ne hq]

end

theorem fdRef_none (f : Fin NFILE) : fdRef none f = 0 := if_neg (by simp)

theorem fdalloc_wp (p : Fin NPROC) (f : Fin NFILE) :
    Wp Any (fdalloc p f) s fun r s' =>
      match r with
      | none => s' = s
      | some fd => (s.proc p).ofile fd = none ∧ s' = s.setFd p fd (some f) := by
  simp only [fdalloc, wp_bind, wp_get]
  split
  · next fd hfind =>
    have h0 := List.find?_some hfind
    rw [wp_bind]
    exact ⟨Option.isNone_iff_eq_none.mp h0, rfl⟩
  · rfl

theorem Ledger.useFd (h : Ledger sb s t n R L (owe d f 1)) (hfd : (s.proc p).ofile fd = none) :
    Ledger sb (s.setFd p fd (some f)) t n R L d := by
  refine h.setFd (some f) fun g => ?_
  rw [hfd, fdRef_none, owe_one]
  simp

theorem Ledger.dropFd (h : Ledger sb s t n R L d) (hfd : (s.proc p).ofile fd = some f) :
    Ledger sb (s.setFd p fd none) t n R L (owe d f 1) := by
  refine h.setFd none fun g => ?_
  rw [hfd, fdRef_none, owe_one]
  simp

end Ledger

end Xv6.Fs
