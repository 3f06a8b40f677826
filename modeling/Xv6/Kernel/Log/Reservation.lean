import Xv6.Kernel.Log.Invariant

namespace Xv6.Log

open Transition List Finset

variable {P : Type} [DecidableEq P]

def Pc.wrote : Pc → List Nat
  | .inOp w => w
  | _ => []

/-- The distinct blocks passed to `log_write` since the last commit, by operations that have
ended and by operations still running. -/
def transBlocks [Fintype P] (s : LogState P) : Finset Nat :=
  s.ops.flatten.toFinset ∪ Finset.univ.biUnion fun p => (s.pc p).wrote.toFinset

/-- The calls the reservation is made for: an operation passes at most `MAXOPBLOCKS` distinct
blocks to `log_write`. -/
def OpBound (s : LogState P) : Label P → Prop
  | .logWrite p b => (b :: (s.pc p).wrote).toFinset.card ≤ MAXOPBLOCKS
  | _ => True

instance (s : LogState P) : (l : Label P) → Decidable (OpBound s l)
  | .logWrite _ _ => inferInstanceAs (Decidable (_ ≤ _))
  | .callBegin _ | .beginOp _ | .wake _ | .endOp _ | .commitStep _ | .endCommit _ =>
      inferInstanceAs (Decidable True)

/-- The step does not end in `panic("too big a transaction")`. -/
def NotTooBig (size : Nat) (s : LogState P) (l : Label P) : Prop :=
  match step size s l with
  | some (.error e) => e ≠ .tooBig
  | _ => True

instance (size : Nat) (s : LogState P) (l : Label P) : Decidable (NotTooBig size s l) := by
  unfold NotTooBig
  split <;> infer_instance

/-- A `log_write` finds fewer than `LOGSIZE - 1` distinct blocks in the running transaction. -/
def Roomy [Fintype P] (s : LogState P) : Label P → Prop
  | .logWrite p _ => (s.pc p).isInOp = true → (transBlocks s).card < LOGSIZE - 1
  | _ => True

variable {s : LogState P}

omit [DecidableEq P] in
theorem Inv.lh_eq_transBlocks [Fintype P] (h : Inv s) : s.lh.toFinset = transBlocks s := by
  ext b
  rw [mem_toFinset, h.blocks b]
  simp only [transBlocks, mem_union, mem_toFinset, mem_flatten, mem_biUnion, mem_univ, true_and]
  apply or_congr Iff.rfl
  constructor
  · rintro ⟨p, w, hp, hb⟩
    exact ⟨p, by simpa [hp, Pc.wrote] using hb⟩
  · rintro ⟨p, hb⟩
    cases hp : s.pc p with
    | inOp w => exact ⟨p, w, hp, by simpa [hp, Pc.wrote] using hb⟩
    | _ => simp [hp, Pc.wrote] at hb

omit [DecidableEq P] in
theorem Inv.lh_length [Fintype P] (h : Inv s) : s.lh.length = (transBlocks s).card := by
  rw [← h.lh_eq_transBlocks, toFinset_card_of_nodup h.nodup]

theorem notTooBig_iff_roomy [Fintype P] (h : Inv s) (l : Label P) :
    NotTooBig LOGSIZE s l ↔ Roomy s l := by
  unfold NotTooBig Roomy
  cases l with
  | logWrite p b =>
    simp only [← h.lh_length]
    cases hp : s.pc p with
    | inOp w =>
      simp only [step, hp, Pc.isInOp, forall_const, logWrite]
      have hl : LOGSIZE = 30 := rfl
      by_cases hbig : LOGSIZE ≤ s.lh.length ∨ LOGSIZE - 1 ≤ s.lh.length
      · have hno : ¬ s.lh.length < LOGSIZE - 1 := by omega
        rw [if_pos hbig]
        simp [hno]
      · have hlt : s.lh.length < LOGSIZE - 1 := by omega
        rw [if_neg hbig]
        by_cases ho : s.outstanding < 1 <;> simp [hlt, ho]
    | _ => simp [step, hp, Pc.isInOp]
  | endOp p =>
    cases hp : s.pc p with
    | inOp w =>
      simp only [step, hp, endOp, iff_true]
      split_ifs <;> simp
    | _ => simp [step, hp]
  | commitStep p =>
    cases hp : s.pc p with
    | commit c => cases hc : commitStep s p c <;> simp [step, hp, hc]
    | _ => simp [step, hp]
  | callBegin p | beginOp p | wake p | endCommit p =>
    simp only [step, iff_true]
    split_ifs <;> simp

/-- The reservation made by `begin_op` counts against `LOGSIZE`, while `log_write` refuses at
`log.size - 1`: a run avoids the panic exactly when no `log_write` finds `LOGSIZE - 1` distinct
blocks in the running transaction. -/
theorem log_write_room_iff {P : Type} [DecidableEq P] [Fintype P] (ls : List (Label P)) :
    Along (step LOGSIZE) (NotTooBig LOGSIZE) (LogState.init P) ls ↔
      Along (step LOGSIZE) Roomy (LogState.init P) ls :=
  along_congr (step LOGSIZE) _ _ Inv (fun _ _ _ hi hs => step_inv hi hs)
    (fun _ l hi => notTooBig_iff_roomy hi l) _ ls init_inv

/-- Three operations that each log ten blocks of their own. -/
def threeFullOps : List (Label (Fin 3)) :=
  [.callBegin 0, .beginOp 0, .callBegin 1, .beginOp 1, .callBegin 2, .beginOp 2] ++
    (List.range 30).map fun b => .logWrite (Fin.ofNat 3 (b / 10)) b

/-- All three are admitted, none exceeds `MAXOPBLOCKS`, and the thirtieth `log_write` panics. -/
theorem log_write_too_big :
    ¬ ∀ ls : List (Label (Fin 3)), Along (step LOGSIZE) OpBound (LogState.init (Fin 3)) ls →
      Along (step LOGSIZE) (NotTooBig LOGSIZE) (LogState.init (Fin 3)) ls := by
  intro h
  have hb : Along (step LOGSIZE) OpBound (LogState.init (Fin 3)) threeFullOps := by decide +kernel
  have hn : ¬ Along (step LOGSIZE) (NotTooBig LOGSIZE) (LogState.init (Fin 3)) threeFullOps := by
    decide +kernel
  exact hn (h _ hb)

end Xv6.Log
