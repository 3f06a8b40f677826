import Xv6.Kernel.Fs.Consistency
import Xv6.Kernel.Fs.LogBudget
import Xv6.Kernel.Vm.Layout

namespace Xv6.Fs

open ByteCodec Hoare Function

variable {sb : Superblock} {s s' : State} {t : Fin NINODE → Nat} {e : Fin NINODE}

/-- A file is an array of bytes for `writei` and `readi`. `writei` can stop only for a log that has
no room for the blocks of the range. -/
theorem file_is_byte_array (h : Inv sb s t) (hr : 0 < (s.inode e).ref)
    (hv : (s.inode e).valid = true) (off n : Nat) (hoff : off < 2 ^ 32) (hn : n < 2 ^ 32) :
    (∀ src : Source, (∀ i m, m ≤ src.good i m) → 0 < s.outstanding →
      Wp (fun x => x = .panic .tooBig ∧ sb.logCapacity < s.lh.length + writeCost off n)
        (writei sb e src off n) s fun r s' =>
          if (s.inode e).din.size.toNat < off ∨ 2 ^ 32 ≤ off + n ∨ MAXFILE * BSIZE < off + n then
            r = -1 ∧ s' = s
          else ∃ tot : Nat, r = tot ∧ tot ≤ n ∧ (tot < n → Full sb s'.disk) ∧ Inv sb s' t ∧
            s'.contents e = splice (s.contents e) off ((List.range tot).map src.byte) ∧
            (s'.inode e).din.size.toNat = max (s.inode e).din.size.toNat (off + tot) ∧
            ∀ j, j ≠ (s.inode e).inum → s'.files sb j = s.files sb j) ∧
    Wp (fun _ => False) (readi sb e (fun _ _ => true) off n) s fun r s' => s' = s ∧
      r.2 = (if (s.inode e).din.size.toNat < off ∨ 2 ^ 32 ≤ off + n then []
        else ((s.contents e).drop off).take n) ∧ r.1 = (r.2.length : Int) := by
  have hwrap : (off + n) % 2 ^ 32 < off ↔ 2 ^ 32 ≤ off + n := by omega
  constructor
  · intro src hsrc ho
    have hbudget : Wp (Overfull sb (s.lh.length + writeCost off n - 1)) (writei sb e src off n) s _ :=
      writei_budget ho src off n (by omega)
    have hdone : Wp (Allowed ⟨True, True, True⟩) (writei sb e src off n) s _ :=
      writei_done h hr hv ho src off n
    refine ((hdone.also hbudget).errors ?_).mono ?_
    · rintro x ⟨-, hx, hcap⟩
      have hpos : 0 < writeCost off n := Nat.succ_pos _
      exact ⟨hx, by omega⟩
    rintro r s' ⟨⟨href, rfl, rfl⟩ | ⟨hgo, tot, s1, ip1, data, got, rfl, hw⟩, -⟩
    · rw [if_pos]
      · exact ⟨rfl, rfl⟩
      · unfold Refused at href
        rwa [hwrap] at href
    have hle : off ≤ (s.inode e).din.size.toNat := by
      by_contra hlt
      exact hgo (.inl (by omega))
    obtain ⟨rfl, hfull⟩ := hw.whole h hr hsrc
    rw [if_neg]
    · refine ⟨tot, rfl, hw.poured.le, hfull, hw.inv, hw.contents_eq h hr hv hle,
        hw.size_eq hr hv, fun j hj => ?_⟩
      rw [hw.files, update_of_ne hj]
    · unfold Refused at hgo
      rwa [hwrap] at hgo
  · by_cases hgo : (s.inode e).din.size.toNat < off ∨ 2 ^ 32 ≤ off + n
    · simp only [readi, wp_bind, wp_getInode, wp_ite, wp_pure, hwrap, if_pos hgo]
      exact ⟨trivial, trivial, rfl⟩
    · rw [if_neg hgo]
      exact readi_contents h hr hv (by omega) (by omega)

def e1 : Fin NINODE := ⟨1, by decide⟩

/-- The demo image with its file of one block in use, inside of a transaction that has logged
nothing. -/
def demoOpen : State :=
  { (boot demoImage).setIp e1 ⟨ROOTDEV, 2, 1, true, true, demoInode T_FILE 1024 47⟩ with
    outstanding := 1 }

theorem demoOpen_e1 : demoOpen.inode e1 = ⟨ROOTDEV, 2, 1, true, true, demoInode T_FILE 1024 47⟩ :=
  setIp_inode_self (s := boot demoImage) e1 _

theorem demoOpen_inv : Inv Mkfs.sb demoOpen (update (procRefs (boot demoImage)) e1 1) := by
  have hset : Inv Mkfs.sb ((boot demoImage).setIp e1 (demoOpen.inode e1))
      (update (procRefs (boot demoImage)) e1 1) := by
    rw [demoOpen_e1]
    apply (boot_inv demoImage_consistent.img).setIp
    · rw [boot_fileRefs, update_self]
    · intro e he
      exact update_of_ne he ..
    · exact fun _ => ⟨rfl, by decide⟩
    · intro _ e _ hr hinum
      by_cases he : e.val = 0
      · simp [boot, he, ROOTINO] at hinum
      · simp [boot, he] at hr
    · exact fun _ _ => ⟨(demo_file ..).symm, by decide⟩
    · intro hpos
      rw [boot_fileRefs] at hpos
      exact absurd hpos (Nat.lt_irrefl 0)
  rw [demoOpen_e1] at hset
  exact hset.congr rfl rfl rfl

def stopped {α : Type} : Except Stop (α × State) → Option Stop
  | .error x => some x
  | .ok _ => none

theorem eq_of_stopped {α : Type} {r : Except Stop (α × State)} {x : Stop}
    (h : stopped r = some x) : r = .error x := by
  cases r with
  | error y =>
    cases h
    rfl
  | ok r => cases h

/-- 28 blocks, the bitmap, the indirect block and the inode do not fit in the log. -/
theorem writei_of_28_blocks_panics : Inv Mkfs.sb demoOpen
      (update (procRefs (boot demoImage)) e1 1) ∧
    0 < (demoOpen.inode e1).ref ∧ (demoOpen.inode e1).valid = true ∧ 0 < demoOpen.outstanding ∧
    demoOpen.lh = [] ∧ ¬ Refused (demoOpen.inode e1).din.size.toNat 0 (28 * 1024) ∧
    writei Mkfs.sb e1 (.kernel fun _ => 1) 0 (28 * 1024) demoOpen =
      .error (.panic .tooBig) :=
  ⟨demoOpen_inv, by decide, by decide, by decide, rfl, by decide, eq_of_stopped (by decide +kernel)⟩

theorem demoOpen_open : 0 < (demoOpen.inode e1).ref ∧ (demoOpen.inode e1).valid = true ∧
    0 < demoOpen.outstanding ∧ (demoOpen.inode e1).din.size.toNat = 1024 := by
  decide

theorem demoOpen_write : ∃ s',
    writei Mkfs.sb e1 (.kernel fun _ => 7) 1000 2000 demoOpen = .ok (2000, s') :=
  ok_of_toOption (by decide +kernel)

theorem file_is_byte_array_demo : ∃ s',
    writei Mkfs.sb e1 (.kernel fun _ => 7) 1000 2000 demoOpen = .ok (2000, s') ∧
    s'.contents e1 = splice (demoOpen.contents e1) 1000 ((List.range 2000).map fun _ => 7) ∧
    (s'.inode e1).din.size.toNat = 3000 := by
  have hinv := demoOpen_inv
  obtain ⟨hr, hv, ho, hsize0⟩ := demoOpen_open
  obtain ⟨s', hrun⟩ := demoOpen_write
  -- the state is not to be evaluated again
  generalize demoOpen = s at *
  have hres := ((file_is_byte_array hinv hr hv 1000 2000 (by omega) (by omega)).1
    (.kernel fun _ => 7) (fun _ _ => le_rfl) ho).result hrun
  have hmax : MAXFILE * BSIZE = 274432 := by decide
  rw [if_neg (by omega)] at hres
  obtain ⟨tot, htot, -, -, -, hcontents, hsize, -⟩ := hres
  have htot : tot = 2000 := by omega
  rw [htot] at hcontents hsize
  refine ⟨s', hrun, hcontents, ?_⟩
  omega

end Xv6.Fs
