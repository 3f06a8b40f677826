import Xv6.Kernel.Param
import Xv6.User.GrepLoop

namespace Xv6.User

open List

def DIRSIZ : Nat := 14
def MAXPATH : Nat := 128

/-- `struct dirent`, with the name as `dirlink` was given it. -/
structure Entry where
  inum : Nat
  name : List UInt8
  deriving DecidableEq

/-- The bytes of `de.name`: `strncpy` fills up with NULs, and a full name has none. -/
def Entry.field (e : Entry) : List UInt8 := e.name ++ replicate (DIRSIZ - e.name.length) 0

/-- What a path leads to. -/
inductive Node
  | dir (entries : List Entry)
  | file
  | device
  deriving DecidableEq

/-- The descriptors a process has open, and what it has written to which of them. -/
structure Process where
  fds : Finset (Fin NOFILE)
  out : List (Nat × List UInt8)

namespace Process

variable (fs : List UInt8 → Option Node)

/-- `open(path, 0)`, which takes the lowest descriptor that is free. -/
def open_ (p : Process) (path : List UInt8) : Option (Fin NOFILE × Node × Process) :=
  if MAXPATH ≤ path.length then none
  else (fs path).bind fun n => ((finRange NOFILE).find? (· ∉ p.fds)).map fun fd =>
    (fd, n, { p with fds := insert fd p.fds })

def close (p : Process) (fd : Fin NOFILE) : Process := { p with fds := p.fds.erase fd }

def print (p : Process) (fd : Nat) (text : List UInt8) : Process :=
  { p with out := p.out ++ [(fd, text)] }

end Process

def text (s : String) : List UInt8 := s.toList.map Char.toUInt8

section

variable (fs : List UInt8 → Option Node) (target after : List UInt8)

/-- The C string at `de.name`, where the bytes `after` follow `de` in memory. -/
def cname (after : List UInt8) (e : Entry) : List UInt8 := cstring (e.field ++ after)

def Entry.path (path name : List UInt8) : List UInt8 := path ++ text "/" ++ name

/-- The body of the loop of `find`; `down` is the recursive call. -/
def visit (down : List UInt8 → Process → Process) (path : List UInt8) (p : Process) (e : Entry) :
    Process :=
  let name := cname after e
  if e.inum = 0 ∨ name = text "." ∨ name = text ".." then p
  else
    let buf := Entry.path path name
    match p.open_ fs buf with
    | none => p.print 2 (text "find: cannot open " ++ buf ++ text "\n")
    | some (fd, n, p) =>
      (match n with
        | .dir _ => down buf p
        | .file => if name = target then p.print 1 (buf ++ text "\n") else p
        | .device => p).close fd

/-- `find`; an `fstat` of an open descriptor does not fail. -/
def find : Nat → List UInt8 → Process → Process
  | 0, _, p => p
  | fuel + 1, path, p =>
    match p.open_ fs path with
    | none => p.print 2 (text "find: cannot open " ++ path ++ text "\n")
    | some (fd, n, p) =>
      (match n with
        | .dir entries => entries.foldl (visit fs target after (find fuel) path) p
        | _ => p.print 2 (text "find: " ++ path ++ text " is not a directory\n")).close fd

/-- The lines on descriptor 1. -/
def Process.lines (p : Process) : List (List UInt8) := (p.out.filter (·.1 = 1)).map Prod.snd

/-- The entries that `find` is to visit. -/
def Entry.Used (e : Entry) : Prop := e.inum ≠ 0 ∧ e.name ≠ text "." ∧ e.name ≠ text ".."

instance (e : Entry) : Decidable e.Used := inferInstanceAs (Decidable (_ ∧ _ ∧ _))

/-- A tree of at most `h` levels of directories, with names of at most 13 bytes and short paths. -/
def TreeAt : Nat → List UInt8 → Prop
  | 0, path => path.length < MAXPATH ∧ (fs path = some .file ∨ fs path = some .device)
  | h + 1, path => path.length < MAXPATH ∧ ∃ n, fs path = some n ∧
      ∀ es, n = .dir es → ∀ e ∈ es, e.Used →
        e.name.length < DIRSIZ ∧ 0 ∉ e.name ∧ TreeAt h (Entry.path path e.name)

/-- Descriptors 0, 1 and 2. -/
def stdFds : Finset (Fin NOFILE) := {fd | fd.val < 3}

/-- The files named `target` that an entry of a directory stands for or leads to. -/
def foundIn (down : List UInt8 → List (Nat × List UInt8)) (l : Nat) (path : List UInt8) (e : Entry) :
    List (Nat × List UInt8) :=
  if e.Used then
    match fs (Entry.path path e.name) with
    | some (.dir _) => down (Entry.path path e.name)
    | some .file => if e.name = target then [(l, Entry.path path e.name)] else []
    | _ => []
  else []

/-- The files named `target` in the first `k` levels of directories, depth first and in directory
order, each with its level; `path` is at level `l`. -/
def found : Nat → Nat → List UInt8 → List (Nat × List UInt8)
  | 0, _, _ => []
  | k + 1, l, path =>
    match fs path with
    | some (.dir es) => es.flatMap (foundIn fs target (found k (l + 1)) l path)
    | _ => []

end

variable {fs : List UInt8 → Option Node} {target after path : List UInt8} {p p' : Process}
  {f h l k : Nat} {e : Entry}

theorem Entry.field_eq (hlen : e.name.length < DIRSIZ) (after : List UInt8) :
    ∃ junk, e.field ++ after = e.name ++ 0 :: junk := by
  obtain ⟨m, hm⟩ := Nat.exists_eq_add_of_lt hlen
  refine ⟨replicate m 0 ++ after, ?_⟩
  rw [field, show DIRSIZ - e.name.length = m + 1 by omega, replicate_succ, append_assoc, cons_append]

theorem cname_eq (hlen : e.name.length < DIRSIZ) (h0 : 0 ∉ e.name) : cname after e = e.name := by
  obtain ⟨junk, hjunk⟩ := Entry.field_eq hlen after
  rw [cname, hjunk, cstring_append h0]

/-- The descriptors are as before, and these files have been printed. -/
def Prints (p p' : Process) (xs : List (Nat × List UInt8)) : Prop :=
  p'.fds = p.fds ∧ p'.lines = p.lines ++ xs.map fun x => x.2 ++ text "\n"

theorem Prints.refl (p : Process) : Prints p p [] := ⟨rfl, by simp⟩

theorem Prints.trans {p'' : Process} {xs ys : List (Nat × List UInt8)} (h : Prints p p' xs)
    (h' : Prints p' p'' ys) : Prints p p'' (xs ++ ys) :=
  ⟨h'.1.trans h.1, by rw [h'.2, h.2, map_append, append_assoc]⟩

theorem Prints.error (p : Process) (msg : List UInt8) : Prints p (p.print 2 msg) [] :=
  ⟨rfl, by simp [Process.lines, Process.print]⟩

theorem Prints.close {xs : List (Nat × List UInt8)} {fd : Fin NOFILE} (hfd : fd ∉ p.fds)
    (h : Prints { p with fds := insert fd p.fds } p' xs) : Prints p (p'.close fd) xs :=
  ⟨by rw [Process.close, h.1, Finset.erase_insert hfd], h.2⟩

theorem open_none (hcard : p.fds.card = NOFILE) : p.open_ fs path = none := by
  have huniv : p.fds = Finset.univ := (Finset.card_eq_iff_eq_univ _).mp (by simpa using hcard)
  simp [Process.open_, huniv]

theorem open_some {n : Node} (hcard : p.fds.card < NOFILE) (hlen : path.length < MAXPATH)
    (hn : fs path = some n) : ∃ fd ∉ p.fds,
      p.open_ fs path = some (fd, n, { p with fds := insert fd p.fds }) := by
  cases hfind : (finRange NOFILE).find? (· ∉ p.fds) with
  | none =>
    have huniv : p.fds = Finset.univ := by
      ext fd
      simpa using find?_eq_none.mp hfind fd (mem_finRange fd)
    simp [huniv] at hcard
  | some fd =>
    refine ⟨fd, by simpa using find?_some hfind, ?_⟩
    rw [Process.open_, if_neg (Nat.not_le.mpr hlen), hn, hfind]
    rfl

theorem TreeAt.node (htree : TreeAt fs h path) : path.length < MAXPATH ∧ ∃ n, fs path = some n := by
  cases h with
  | zero => exact ⟨htree.1, htree.2.elim (⟨_, ·⟩) (⟨_, ·⟩)⟩
  | succ h =>
    obtain ⟨hlen, n, hn, -⟩ := htree
    exact ⟨hlen, n, hn⟩

/-- One entry is visited: in vain if there is no descriptor left. -/
theorem visit_prints {down : List UInt8 → Process → Process} {xs : List UInt8 → List (Nat × List UInt8)}
    (hcard : p.fds.card + f = NOFILE)
    (htree : e.Used → e.name.length < DIRSIZ ∧ 0 ∉ e.name ∧ TreeAt fs h (Entry.path path e.name))
    (hdown : ∀ es, fs (Entry.path path e.name) = some (.dir es) →
      TreeAt fs h (Entry.path path e.name) → ∀ p, p.fds.card + (f - 1) = NOFILE →
      Prints p (down (Entry.path path e.name) p) (xs (Entry.path path e.name))) :
    Prints p (visit fs target after down path p e)
      (if f = 0 then [] else foundIn fs target xs l path e) := by
  by_cases hused : e.Used
  · obtain ⟨hlen, h0, ht⟩ := htree hused
    obtain ⟨hshort, n, hn⟩ := ht.node
    have hvisit : ¬ (e.inum = 0 ∨ e.name = text "." ∨ e.name = text "..") := by
      rintro (hx | hx | hx)
      · exact hused.1 hx
      · exact hused.2.1 hx
      · exact hused.2.2 hx
    simp only [visit, cname_eq hlen h0]
    rw [if_neg hvisit]
    cases f with
    | zero =>
      rw [open_none hcard]
      exact .error ..
    | succ f =>
      obtain ⟨fd, hfd, hopen⟩ := open_some (p := p) (by omega) hshort hn
      simp only [hopen, if_neg (Nat.succ_ne_zero f), foundIn, if_pos hused, hn]
      refine .close hfd ?_
      cases n with
      | dir es => exact hdown es hn ht _ (by rw [Finset.card_insert_of_notMem hfd]; omega)
      | file =>
        dsimp only
        split_ifs
        · exact ⟨rfl, by simp [Process.lines, Process.print]⟩
        · exact .refl _
      | device => exact .refl _
  · have hname : ∀ s, s.length < DIRSIZ → 0 ∉ s → e.name = s → cname after e = s := by
      rintro s hlen h0 rfl
      exact cname_eq hlen h0
    have hskip : visit fs target after down path p e = p := by
      apply if_pos
      by_contra hnot
      exact hused ⟨fun hx => hnot (.inl hx),
        fun hx => hnot (.inr (.inl (hname _ (by decide) (by decide) hx))),
        fun hx => hnot (.inr (.inr (hname _ (by decide) (by decide) hx)))⟩
    rw [hskip, foundIn, if_neg hused, ite_self]
    exact .refl p

theorem foldl_prints {g : Process → Entry → Process} {xs : Entry → List (Nat × List UInt8)}
    {es : List Entry} (hg : ∀ e ∈ es, ∀ p, p.fds.card + f = NOFILE → Prints p (g p e) (xs e))
    (hcard : p.fds.card + f = NOFILE) : Prints p (es.foldl g p) (es.flatMap xs) := by
  induction es generalizing p with
  | nil => exact .refl p
  | cons e es ih =>
    have hfirst := hg e mem_cons_self p hcard
    exact hfirst.trans (ih (fun e he => hg e (mem_cons_of_mem _ he)) (by rw [hfirst.1, hcard]))

theorem found_nil (hdir : ∀ es, fs path ≠ some (.dir es)) : found fs target k l path = [] := by
  cases k with
  | zero => rfl
  | succ k =>
    rw [found]
    split
    · next es hes => exact absurd hes (hdir es)
    · rfl

theorem find_prints {fuel : Nat} (htree : TreeAt fs h path) (hcard : p.fds.card + f = NOFILE)
    (hfuel : f / 2 ≤ fuel) :
    Prints p (find fs target after fuel path p) (found fs target (f / 2) l path) := by
  induction fuel generalizing path p f h l with
  | zero =>
    rw [show f / 2 = 0 by omega]
    exact .refl p
  | succ fuel ih =>
    rw [find]
    cases f with
    | zero =>
      rw [open_none hcard]
      exact .error ..
    | succ f =>
      obtain ⟨hshort, n, hn⟩ := htree.node
      obtain ⟨fd, hfd, hopen⟩ := open_some (p := p) (by omega) hshort hn
      simp only [hopen]
      refine .close hfd ?_
      cases n with
      | file =>
        rw [found_nil (by simp [hn])]
        exact .error ..
      | device =>
        rw [found_nil (by simp [hn])]
        exact .error ..
      | dir es =>
        have hcard' : (insert fd p.fds).card + f = NOFILE := by
          rw [Finset.card_insert_of_notMem hfd]
          omega
        cases h with
        | zero => rcases htree.2 with hx | hx <;> cases hn.symm.trans hx
        | succ h =>
          obtain ⟨-, n, hn', htree⟩ := htree
          cases hn.symm.trans hn'
          have hfold : Prints { p with fds := insert fd p.fds }
              (es.foldl (visit fs target after (find fs target after fuel) path)
                { p with fds := insert fd p.fds })
              (es.flatMap fun e => if f = 0 then [] else
                foundIn fs target (found fs target ((f - 1) / 2) (l + 1)) l path e) :=
            foldl_prints (fun e he p hp => visit_prints hp (htree es rfl e he)
              fun _ _ ht p hp => ih ht hp (by omega)) hcard'
          by_cases hf : f = 0
          · simpa [hf, found, flatMap_eq_nil_iff.mpr] using hfold
          · rw [show (f + 1) / 2 = (f - 1) / 2 + 1 by omega, found, hn]
            simpa only [if_neg hf] using hfold

theorem le_of_mem_found {x : Nat × List UInt8} (hx : x ∈ found fs target k l path) : l ≤ x.1 := by
  induction k generalizing path l with
  | zero => cases hx
  | succ k ih =>
    rw [found] at hx
    split at hx
    · obtain ⟨e, -, hx⟩ := mem_flatMap.mp hx
      by_cases hused : e.Used
      · rw [foundIn, if_pos hused] at hx
        split at hx
        · exact (Nat.le_succ l).trans (ih hx)
        · split at hx
          · rw [mem_singleton.mp hx]
          · cases hx
        · cases hx
      · rw [foundIn, if_neg hused] at hx
        cases hx
    · cases hx

/-- Fewer levels show fewer of the files. -/
theorem found_eq_filter (htree : TreeAt fs h path) :
    found fs target k l path = (found fs target h l path).filter (·.1 < l + k) := by
  induction h generalizing path l k with
  | zero =>
    have hdir : ∀ es, fs path ≠ some (.dir es) := by
      intro es hes
      rcases htree.2 with hx | hx <;> cases hes.symm.trans hx
    rw [found_nil hdir, found_nil hdir]
    rfl
  | succ h ih =>
    cases k with
    | zero =>
      refine (filter_eq_nil_iff.mpr fun x hx => ?_).symm
      have := le_of_mem_found hx
      simpa using this
    | succ k =>
      obtain ⟨-, n, hn, htree⟩ := htree
      cases n with
      | file => rw [found_nil (by simp [hn]), found_nil (by simp [hn]), filter_nil]
      | device => rw [found_nil (by simp [hn]), found_nil (by simp [hn]), filter_nil]
      | dir es =>
        simp only [found, hn, filter_flatMap]
        refine flatMap_congr fun e he => ?_
        by_cases hused : e.Used
        · have hsub := fun l => ih (k := k) (l := l) (htree es rfl e he hused).2.2
          simp only [foundIn, if_pos hused]
          split
          · rw [hsub, Nat.add_right_comm, Nat.add_assoc]
          · split_ifs
            · have hlt : l < l + (k + 1) := by omega
              rw [filter_singleton, decide_eq_true hlt, cond_true]
            · rfl
          · rfl
        · simp only [foundIn, if_neg hused, filter_nil]

/-- Every level of `find` keeps two descriptors, so that it gets no deeper than six directories. -/
theorem find_visits_whole_tree {fuel : Nat} (htree : TreeAt fs h path) (hfds : p.fds = stdFds)
    (hout : p.out = []) (hfuel : NOFILE ≤ fuel) :
    (find fs target after fuel path p).fds = p.fds ∧
      ((find fs target after fuel path p).lines =
          (found fs target h 1 path).map (fun x => x.2 ++ text "\n") ↔
        ∀ x ∈ found fs target h 1 path, x.1 ≤ 6) := by
  have hcard : p.fds.card + 13 = NOFILE := by rw [hfds]; decide
  have hprints : Prints p (find fs target after fuel path p) (found fs target 6 1 path) :=
    find_prints htree hcard (Nat.le_trans (by decide) hfuel)
  refine ⟨hprints.1, ?_⟩
  rw [hprints.2, found_eq_filter htree, Process.lines, hout]
  constructor
  · intro hlines x hx
    have hlen := congrArg length hlines
    simp only [filter_nil, map_nil, nil_append, length_map] at hlen
    have hall := length_filter_eq_length_iff.mp hlen x hx
    simp only [decide_eq_true_eq] at hall
    omega
  · intro hall
    have hself : (found fs target h 1 path).filter (·.1 < 1 + 6) = found fs target h 1 path := by
      refine filter_eq_self.mpr fun x hx => decide_eq_true ?_
      have := hall x hx
      omega
    rw [hself]
    rfl

/-- The directories `t`, `t/d`, `t/d/d`, … with a file in the last of them. -/
def chain (n : Nat) (path : List UInt8) : Option Node :=
  let dir := fun k => text "t" ++ (replicate k (text "/d")).flatten
  if path = Entry.path (dir n) (text "f") then some .file
  else if path = dir n then some (.dir [⟨5, text "f"⟩])
  else if path ∈ (range n).map dir then some (.dir [⟨4, text "d"⟩])
  else none

theorem find_visits_whole_tree_one_file :
    (find (chain 0) (text "f") [] 16 (text "t") ⟨stdFds, []⟩).lines = [text "t/f\n"] := by
  have htree : TreeAt (chain 0) 2 (text "t") := by
    refine ⟨by decide, .dir [⟨5, text "f"⟩], by decide +kernel, ?_⟩
    intro es hes e he _
    cases hes
    cases mem_singleton.mp he
    exact ⟨by decide, by decide, by decide, .file, by decide +kernel, nofun⟩
  exact (find_visits_whole_tree htree rfl rfl (by decide)).2.mpr (by decide +kernel)

theorem find_misses_seventh_directory :
    (find (chain 6) (text "f") [] 16 (text "t") ⟨stdFds, []⟩).out =
        [(2, text "find: cannot open t/d/d/d/d/d/d/f\n")] ∧
      found (chain 6) (text "f") 7 1 (text "t") = [(7, text "t/d/d/d/d/d/d/f")] := by
  decide +kernel

/-- The number of bytes of `p` that `strcmp(p, q)` looks at. -/
def strcmpReads : List UInt8 → List UInt8 → Nat
  | [], _ => 0
  | c :: p, q => if c ≠ 0 ∧ q.head? = some c then strcmpReads p q.tail + 1 else 1

theorem strcmpReads_le {s junk q : List UInt8} : strcmpReads (s ++ 0 :: junk) q ≤ s.length + 1 := by
  induction s generalizing q with
  | nil => simp [strcmpReads]
  | cons c s ih =>
    have := ih (q := q.tail)
    rw [cons_append, strcmpReads, length_cons]
    split_ifs <;> omega

/-- The loop of `find` takes an entry by its name: no byte outside `de.name` and `buf` is used, and
if it is the file looked for, it is printed. -/
structure Entry.Handled (after path : List UInt8) (e : Entry) : Prop where
  name : cname after e = e.name
  strcpy : (cname after e).length + 1 ≤ DIRSIZ
  strcmp : ∀ s, strcmpReads (e.field ++ after) s ≤ DIRSIZ
  buf : (Entry.path path (cname after e)).length + 1 ≤ 512
  print : ∀ fs down p, e.Used → p.fds.card < NOFILE → (Entry.path path e.name).length < MAXPATH →
    fs (Entry.path path e.name) = some .file →
    (visit fs e.name after down path p e).lines =
      p.lines ++ [Entry.path path e.name ++ text "\n"]

/-- A name of `DIRSIZ` bytes has no NUL of its own. -/
theorem find_handles_every_name {es : List Entry} (hpath : path.length < MAXPATH)
    (hes : ∀ e ∈ es, e.name.length ∈ Set.Icc 1 DIRSIZ ∧ 0 ∉ e.name) :
    (∀ e ∈ es, e.inum ≠ 0 → e.Handled after path) ↔
      ∀ e ∈ es, e.inum ≠ 0 → e.name.length < DIRSIZ := by
  refine forall₂_congr fun e he => forall_congr' fun _ => ?_
  obtain ⟨hlen, h0⟩ := hes e he
  constructor
  · intro hh
    have := hh.strcpy
    rw [hh.name] at this
    exact this
  · intro hlt
    have hname : cname after e = e.name := cname_eq hlt h0
    obtain ⟨junk, hjunk⟩ := Entry.field_eq hlt after
    refine ⟨hname, by rwa [hname], fun s => ?_, ?_, fun fs down p hused hcard hlong hfile => ?_⟩
    · rw [hjunk]
      exact strcmpReads_le.trans hlt
    · have : (text "/").length = 1 := rfl
      simp only [hname, Entry.path, length_append]
      simp only [MAXPATH, DIRSIZ] at hpath hlt
      omega
    · have hprints : Prints p (visit fs e.name after down path p e)
          (if NOFILE - p.fds.card = 0 then [] else foundIn fs e.name (fun _ => []) 0 path e) :=
        visit_prints (h := 0) (l := 0) (Nat.add_sub_of_le hcard.le)
          (fun _ => ⟨hlt, h0, hlong, .inl hfile⟩) fun es hes => by cases hfile.symm.trans hes
      rw [if_neg (Nat.sub_ne_zero_of_lt hcard), foundIn, if_pos hused, hfile] at hprints
      simpa using hprints.2

theorem find_handles_every_name_short :
    Entry.Handled [98, 0] (text "t") ⟨5, text "notes"⟩ :=
  (find_handles_every_name (by decide) (by decide +kernel)).mpr (by decide +kernel) _
    (mem_singleton_self _) (by decide)

/-- The file is there, but its name runs on into the byte after the entry. -/
theorem find_misses_full_name :
    (find (fun path => if path = text "t" then some (.dir [⟨5, text "fourteen_bytes"⟩]) else some .file)
      (text "fourteen_bytes") [98, 0] 16 (text "t") ⟨stdFds, []⟩).out = [] := by
  decide +kernel

end Xv6.User
