import Mathlib

namespace Ring

open Function List

variable {α : Type} {next prev : α → α} {a c h x : α} {xs ys : List α}

/-- The links lead from `a` through `xs` to `c`, and back. -/
def Seg (next prev : α → α) : α → List α → α → Prop
  | a, [], c => next a = c ∧ prev c = a
  | a, x :: xs, c => (next a = x ∧ prev x = a) ∧ Seg next prev x xs c

theorem seg_append : Seg next prev a (xs ++ x :: ys) c ↔
    Seg next prev a xs x ∧ Seg next prev x ys c := by
  induction xs generalizing a with
  | nil => rfl
  | cons y xs ih => simp only [cons_append, Seg, ih, and_assoc]

theorem seg_swap : Seg next prev a xs c ↔ Seg prev next c xs.reverse a := by
  induction xs generalizing a with
  | nil => exact and_comm
  | cons x xs ih =>
    rw [reverse_cons, seg_append]
    simp only [Seg, ih]
    tauto

theorem seg_first (hs : Seg next prev a xs c) : next a ∈ xs ++ [c] := by
  cases xs with
  | nil => simp [hs.1]
  | cons x xs => simp [hs.1.1]

theorem seg_last (hs : Seg next prev a xs c) : prev c ∈ a :: xs := by
  have h := seg_first (seg_swap.mp hs)
  simpa [or_comm] using h

theorem seg_inverse (hs : Seg next prev a xs c) :
    (∀ n ∈ a :: xs, prev (next n) = n) ∧ ∀ n ∈ xs ++ [c], next (prev n) = n := by
  induction xs generalizing a with
  | nil =>
    obtain ⟨h1, h2⟩ := hs
    simp [h1, h2]
  | cons x xs ih =>
    obtain ⟨⟨h1, h2⟩, hs⟩ := hs
    obtain ⟨hp, hn⟩ := ih hs
    constructor
    · intro n hmem
      rcases mem_cons.mp hmem with rfl | hmem
      · rw [h1, h2]
      · exact hp n hmem
    · intro n hmem
      rcases mem_cons.mp hmem with rfl | hmem
      · rw [h2, h1]
      · exact hn n hmem

section Update

variable [DecidableEq α]

theorem seg_update_next (u v : α) (hu : u ∉ a :: xs) :
    Seg (update next u v) prev a xs c ↔ Seg next prev a xs c := by
  induction xs generalizing a with
  | nil =>
    have ha : a ≠ u := by
      rintro rfl
      simp at hu
    simp [Seg, ha]
  | cons x xs ih =>
    rw [mem_cons, not_or] at hu
    simp [Seg, ih hu.2, Ne.symm hu.1]

theorem seg_update_prev (u v : α) (hu : u ∉ xs ++ [c]) :
    Seg next (update prev u v) a xs c ↔ Seg next prev a xs c := by
  have hr : u ∉ c :: xs.reverse := by
    simp only [mem_append, mem_singleton, not_or] at hu
    simp [hu.1, hu.2]
  rw [seg_swap, seg_update_next u v hr, ← seg_swap]

/-- Taking `x` out of the middle, by the two assignments to its neighbours. -/
theorem seg_unlink (hl : Seg next prev a xs x) (hr : Seg next prev x ys c) (ha : (a :: xs).Nodup)
    (hys : ys.Nodup) (hay : a ∉ ys) (hcy : c ∉ ys) (hd : ∀ u ∈ xs, u ∉ ys ++ [c]) :
    Seg (update next (prev x) (next x)) (update prev (next x) (prev x))
      a (xs ++ ys) c := by
  induction xs generalizing a with
  | nil =>
    obtain ⟨_, hpx⟩ := hl
    rw [hpx, nil_append]
    cases ys with
    | nil =>
      obtain ⟨hn, _⟩ := hr
      simp [Seg, hn]
    | cons y ys =>
      obtain ⟨⟨hn, _⟩, hr⟩ := hr
      rw [hn]
      refine ⟨by simp, ?_⟩
      rw [seg_update_next _ _ hay, seg_update_prev]
      · exact hr
      · have hyy := (nodup_cons.mp hys).1
        have hyc : y ≠ c := by
          rintro rfl
          simp at hcy
        simp [hyy, hyc]
  | cons b bs ih =>
    obtain ⟨⟨hn, hp⟩, hl⟩ := hl
    have hb : (b :: bs).Nodup := (nodup_cons.mp ha).2
    have hby : b ∉ ys ++ [c] := hd b (by simp)
    have hind := ih hl hb (fun hm => hby (by simp [hm])) (fun u hu => hd u (by simp [hu]))
    have hlast : a ≠ prev x := by
      intro he
      exact (nodup_cons.mp ha).1 (he ▸ seg_last hl)
    have hfirst : b ≠ next x := by
      intro he
      exact hby (he ▸ seg_first hr)
    exact ⟨⟨by simp [hlast, hn], by simp [hfirst, hp]⟩, hind⟩

end Update

/-- The links form one ring through `h` that visits `xs` in order, every node once. -/
structure IsRing (next prev : α → α) (h : α) (xs : List α) : Prop where
  seg : Seg next prev h xs h
  nodup : (h :: xs).Nodup

namespace IsRing

theorem inverse (hr : IsRing next prev h xs) :
    ∀ n ∈ h :: xs, prev (next n) = n ∧ next (prev n) = n := by
  intro n hn
  obtain ⟨hp, hq⟩ := seg_inverse hr.seg
  refine ⟨hp n hn, hq n ?_⟩
  simpa [or_comm] using hn

variable [DecidableEq α]

theorem unlink (hr : IsRing next prev h (xs ++ x :: ys)) :
    IsRing (update next (prev x) (next x)) (update prev (next x) (prev x))
      h (xs ++ ys) := by
  obtain ⟨hs, hn⟩ := hr
  obtain ⟨hl, hr⟩ := seg_append.mp hs
  simp only [nodup_cons, mem_append, mem_cons, not_or, nodup_append] at hn
  obtain ⟨⟨hhx, hhn, hhy⟩, hxs, ⟨hny, hys⟩, hd⟩ := hn
  constructor
  · refine seg_unlink hl hr (nodup_cons.mpr ⟨hhx, hxs⟩) hys hhy hhy ?_
    intro u hu hm
    rcases mem_append.mp hm with hm | hm
    · exact hd u hu u (Or.inr hm) rfl
    · rw [mem_singleton] at hm
      exact hhx (hm ▸ hu)
  · simp only [nodup_cons, mem_append, not_or, nodup_append]
    exact ⟨⟨hhx, hhy⟩, hxs, hys, fun u hu v hv => hd u hu v (Or.inr hv)⟩

/-- Putting `x` right after `h`, by the four assignments of a doubly linked insertion. -/
theorem insert (hr : IsRing next prev h xs) (hx : x ∉ h :: xs) :
    IsRing (update (update next x (next h)) h x)
      (update (update prev x h) (update next x (next h) h) x)
      h (x :: xs) := by
  obtain ⟨hs, hn⟩ := hr
  have hxh : x ≠ h := by
    rintro rfl
    simp at hx
  have hxx : x ∉ xs := fun hm => hx (by simp [hm])
  rw [update_of_ne (Ne.symm hxh)]
  refine ⟨?_, ?_⟩
  · have hne : x ≠ next h := by
      intro he
      have hm := seg_first hs
      rw [← he] at hm
      rcases mem_append.mp hm with hm | hm
      · exact hxx hm
      · exact hxh (mem_singleton.mp hm)
    refine ⟨⟨by simp, by simp [hne]⟩, ?_⟩
    cases xs with
    | nil =>
      obtain ⟨h1, _⟩ := hs
      simp [Seg, h1, hxh]
    | cons y ys =>
      obtain ⟨⟨h1, _⟩, hs⟩ := hs
      rw [h1]
      simp only [nodup_cons, mem_cons, not_or] at hn hxx
      obtain ⟨⟨hhy, hhys⟩, hyy, _⟩ := hn
      refine ⟨by simp [hxh], ?_⟩
      rw [seg_update_next _ _ (by simp [hhy, hhys]), seg_update_next _ _ (by simp [hxx.1, hxx.2]),
        seg_update_prev _ _ (by simp [hyy, Ne.symm hhy]),
        seg_update_prev _ _ (by simp [hxx.2, hxh])]
      exact hs
  · simp only [nodup_cons, mem_cons, not_or] at hn ⊢
    exact ⟨⟨Ne.symm hxh, hn.1⟩, hxx, hn.2⟩

end IsRing

/-- The loop `for (b = start; b != h; b = step(b)) if (p(b)) return b;` with a bound on its
iterations: `none` is running out, `some none` is reaching `h`. -/
def scan [DecidableEq α] (step : α → α) (h : α) (p : α → Bool) : Nat → α → Option (Option α)
  | 0, _ => none
  | fuel + 1, b => if b = h then some none else if p b then some (some b) else scan step h p fuel (step b)

theorem scan_seg [DecidableEq α] (p : α → Bool) (hs : Seg next prev a xs h) (hh : h ∉ xs)
    (fuel : Nat) (hf : xs.length < fuel) : scan next h p fuel (next a) = some (xs.find? p) := by
  induction xs generalizing a fuel with
  | nil =>
    cases fuel with
    | zero => simp at hf
    | succ fuel => simp [scan, hs.1]
  | cons x xs ih =>
    cases fuel with
    | zero => simp at hf
    | succ fuel =>
      obtain ⟨⟨hn, _⟩, hs⟩ := hs
      simp only [mem_cons, not_or] at hh
      rw [scan, hn, if_neg (Ne.symm hh.1), find?_cons]
      cases hp : p x with
      | true => simp
      | false => simpa using ih hs hh.2 fuel (by simpa using hf)

variable (p : α → Bool) (hr : IsRing next prev h xs) (fuel : Nat) (hf : xs.length < fuel)
include hr hf

/-- Scanned against the links, the ring is searched from its end. -/
theorem scan_ring_prev [DecidableEq α] :
    scan prev h p fuel (prev h) = some (xs.reverse.find? p) := by
  have hh : h ∉ xs := (nodup_cons.mp hr.nodup).1
  exact scan_seg p (seg_swap.mp hr.seg) (by simpa using hh) fuel (by simpa using hf)

theorem scan_ring_next [DecidableEq α] : scan next h p fuel (next h) = some (xs.find? p) :=
  scan_seg p hr.seg (nodup_cons.mp hr.nodup).1 fuel hf

end Ring
