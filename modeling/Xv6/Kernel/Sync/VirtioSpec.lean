import Xv6.Kernel.Sync.Virtio

namespace Xv6.Virtio

open Monitor Monitor.Client Transition Function List Option Nat

theorem slot_natCast (n : Nat) : slot (UInt16.ofNat n) = Fin.ofNat NUM n := by
  apply Fin.ext
  change (UInt16.ofNat n).toNat % NUM = n % NUM
  rw [UInt16.toNat_ofNat']
  exact mod_mod_of_dvd n (by decide)

theorem ofNat_ne {i j : Nat} (hij : i < j) (hj : j < i + NUM) :
    Fin.ofNat NUM i ≠ Fin.ofNat NUM j := by
  intro heq
  have hval : i % NUM = j % NUM := congrArg Fin.val heq
  unfold NUM at hj hval
  omega

section Rings

variable {q : Rings} {h : Idx}

namespace Rings

/-- The requests between the two rings: published, worked on, to be reported, or reported and not
seen by the interrupt handler. -/
def waiting (q : Rings) : List Idx :=
  q.published.drop q.taken ++ q.device.inflight ++ q.device.finished ++ q.posted.drop q.acked

/-- The rings hold what has been put in and not been taken out, and no request is in two places. -/
structure Sound (q : Rings) : Prop where
  nodup : q.waiting.Nodup
  count : q.taken = q.device.inflight.length + q.device.finished.length + q.posted.length
  taken : q.taken ≤ q.published.length
  acked : q.acked ≤ q.posted.length
  availIdx : q.avail.idx = UInt16.ofNat q.published.length
  seen : q.device.seen = UInt16.ofNat q.taken
  usedIdx : q.used.idx = UInt16.ofNat q.posted.length
  avail : ∀ j h, q.taken ≤ j → q.published[j]? = some h →
    q.avail.ring (Fin.ofNat NUM j) = UInt16.ofNat h
  used : ∀ j h, q.acked ≤ j → q.posted[j]? = some h →
    q.used.ring (Fin.ofNat NUM j) = UInt32.ofNat h

theorem mem_waiting (hmem : h ∈ q.device.finished ++ q.posted.drop q.acked) : h ∈ q.waiting := by
  rcases mem_append.mp hmem with hfin | hpost
  · exact mem_append_left _ (mem_append_right _ hfin)
  · exact mem_append_right _ hpost

theorem length_waiting (q : Rings) : q.waiting.length =
    q.published.length - q.taken + q.device.inflight.length + q.device.finished.length +
      (q.posted.length - q.acked) := by
  simp only [waiting, length_append, length_drop]

theorem Sound.length_le (hq : q.Sound) : q.waiting.length ≤ NUM := by
  have hcard := hq.nodup.length_le_card
  rwa [Fintype.card_fin] at hcard

theorem Sound.length_lt (hq : q.Sound) (hh : h ∉ q.waiting) : q.waiting.length < NUM := by
  have hcard := (nodup_cons.mpr ⟨hh, hq.nodup⟩).length_le_card
  rw [Fintype.card_fin] at hcard
  exact hcard

theorem Sound.put (hq : q.Sound) (hh : h ∉ q.waiting) : (q.put h).Sound := by
  have hroom := hq.length_lt hh
  rw [length_waiting] at hroom
  refine { hq with avail := fun j i hj hi => ?_ }
  have hlt : j < q.published.length := (List.getElem?_eq_some_iff.mp hi).1
  have hne : Fin.ofNat NUM j ≠ slot q.avail.idx := by
    rw [hq.availIdx, slot_natCast]
    exact ofNat_ne hlt (by change q.taken ≤ j at hj; omega)
  exact (update_of_ne hne ..).trans (hq.avail j i hj hi)

theorem put_last (q : Rings) (h : Idx) :
    (q.put h).avail.ring (slot (q.put h).avail.idx) = UInt16.ofNat h := update_self ..

theorem getElem?_concat {l : List Idx} {j : Nat} {x : Idx} (hx : (l ++ [h])[j]? = some x) :
    l[j]? = some x ∨ j = l.length ∧ x = h := by
  rcases Nat.lt_or_ge j l.length with hlt | hge
  · rw [getElem?_append_left hlt] at hx
    exact .inl hx
  · rw [getElem?_append_right hge, getElem?_singleton] at hx
    split_ifs at hx
    cases hx
    exact .inr ⟨by omega, rfl⟩

theorem waiting_publish (hq : q.Sound) : (q.publish h).waiting.Perm (h :: q.waiting) := by
  have hdrop : (q.published ++ [h]).drop q.taken = q.published.drop q.taken ++ [h] :=
    drop_append_of_le_length hq.taken
  change ((q.published ++ [h]).drop q.taken ++ q.device.inflight ++ q.device.finished ++
    q.posted.drop q.acked).Perm _
  rw [hdrop, waiting, perm_iff_count]
  intro i
  simp only [count_append, count_cons, count_nil]
  omega

theorem Sound.publish (hq : q.Sound) (hh : h ∉ q.waiting)
    (hlast : q.avail.ring (slot q.avail.idx) = UInt16.ofNat h) : (q.publish h).Sound := by
  refine { hq with
    nodup := (waiting_publish hq).nodup_iff.mpr (nodup_cons.mpr ⟨hh, hq.nodup⟩)
    taken := ?_
    availIdx := ?_
    avail := fun j i hj hi => ?_ }
  · change q.taken ≤ (q.published ++ [h]).length
    rw [length_append]
    exact le_add_right_of_le hq.taken
  · change q.avail.idx + 1 = UInt16.ofNat (q.published ++ [h]).length
    rw [hq.availIdx, length_append, UInt16.ofNat_add]
    rfl
  change (q.published ++ [h])[j]? = some i at hi
  change q.avail.ring _ = _
  rcases getElem?_concat hi with hold | ⟨rfl, rfl⟩
  · exact hq.avail j i hj hold
  · rw [← slot_natCast, ← hq.availIdx, hlast]

section

variable (hq : q.Sound) (hne : q.device.seen ≠ q.avail.idx)
include hq hne

theorem Sound.next :
    ∃ h rest, q.published.drop q.taken = h :: rest ∧ q.published.drop (q.taken + 1) = rest ∧
      slot (q.avail.ring (slot q.device.seen)) = h := by
  have hlt : q.taken < q.published.length := by
    rcases Nat.lt_or_ge q.taken q.published.length with hlt | hge
    · exact hlt
    · rw [hq.seen, hq.availIdx, le_antisymm hq.taken hge] at hne
      exact absurd rfl hne
  refine ⟨_, _, drop_eq_getElem_cons hlt, rfl, ?_⟩
  rw [hq.seen, slot_natCast, hq.avail q.taken _ le_rfl (getElem?_eq_getElem hlt), slot_ofNat]

theorem waiting_take : q.take.waiting.Perm q.waiting := by
  obtain ⟨h, rest, hdrop, hdrop', hslot⟩ := hq.next hne
  change (q.published.drop (q.taken + 1) ++ (q.device.inflight ++ [_]) ++ q.device.finished ++
    q.posted.drop q.acked).Perm _
  rw [hdrop', hslot, waiting, hdrop, perm_iff_count]
  intro i
  simp only [count_append, count_cons, count_nil]
  omega

theorem Sound.take : q.take.Sound := by
  refine { hq with
    nodup := (waiting_take hq hne).nodup_iff.mpr hq.nodup
    count := ?_
    taken := ?_
    seen := ?_
    avail := fun j i hj hi => hq.avail j i (le_of_succ_le hj) hi }
  · have hcount := hq.count
    change q.taken + 1 =
      (q.device.inflight ++ [_]).length + q.device.finished.length + q.posted.length
    rw [length_append, length_singleton]
    omega
  · obtain ⟨h, rest, hdrop, -⟩ := hq.next hne
    have hlen := congrArg List.length hdrop
    rw [length_drop, length_cons] at hlen
    change q.taken + 1 ≤ q.published.length
    omega
  · change q.device.seen + 1 = UInt16.ofNat (q.taken + 1)
    rw [hq.seen, UInt16.ofNat_add]
    rfl

end

theorem count_erase {l : List Idx} (hmem : h ∈ l) (i : Idx) :
    (l.erase h).count i + [h].count i = l.count i := by
  rw [(perm_cons_erase hmem).count_eq i, count_cons, count_cons, count_nil]
  omega

theorem length_erase {l : List Idx} (hmem : h ∈ l) : (l.erase h).length + 1 = l.length := by
  rw [length_erase_of_mem hmem]
  exact Nat.sub_add_cancel (length_pos_of_mem hmem)

theorem waiting_serve (hmem : h ∈ q.device.inflight) : (q.serve h).waiting.Perm q.waiting := by
  change (q.published.drop q.taken ++ q.device.inflight.erase h ++ (q.device.finished ++ [h]) ++
    q.posted.drop q.acked).Perm _
  rw [waiting, perm_iff_count]
  intro i
  have hcount := count_erase hmem i
  simp only [count_append]
  omega

variable (hq : q.Sound)
include hq

theorem Sound.serve (hmem : h ∈ q.device.inflight) : (q.serve h).Sound := { hq with
    nodup := (waiting_serve hmem).nodup_iff.mpr hq.nodup
    count := by
      have hcount := hq.count
      have hlen := length_erase hmem
      change q.taken = (q.device.inflight.erase h).length + (q.device.finished ++ [h]).length +
        q.posted.length
      rw [length_append, length_singleton]
      omega }

theorem waiting_post (hmem : h ∈ q.device.finished) : (q.post h).waiting.Perm q.waiting := by
  have hdrop : (q.posted ++ [h]).drop q.acked = q.posted.drop q.acked ++ [h] :=
    drop_append_of_le_length hq.acked
  change (q.published.drop q.taken ++ q.device.inflight ++ q.device.finished.erase h ++
    (q.posted ++ [h]).drop q.acked).Perm _
  rw [hdrop, waiting, perm_iff_count]
  intro i
  have hcount := count_erase hmem i
  simp only [count_append]
  omega

theorem Sound.post (hmem : h ∈ q.device.finished) : (q.post h).Sound := by
  have hlen := length_erase hmem
  have hroom := hq.length_le
  rw [length_waiting] at hroom
  refine { hq with
    nodup := (waiting_post hq hmem).nodup_iff.mpr hq.nodup
    count := ?_
    acked := ?_
    usedIdx := ?_
    used := fun j i hj hi => ?_ }
  · have hcount := hq.count
    change q.taken = q.device.inflight.length + (q.device.finished.erase h).length +
      (q.posted ++ [h]).length
    rw [length_append, length_singleton]
    omega
  · change q.acked ≤ (q.posted ++ [h]).length
    rw [length_append]
    exact le_add_right_of_le hq.acked
  · change q.used.idx + 1 = UInt16.ofNat (q.posted ++ [h]).length
    rw [hq.usedIdx, length_append, UInt16.ofNat_add]
    rfl
  change (q.posted ++ [h])[j]? = some i at hi
  change update q.used.ring (slot q.used.idx) (UInt32.ofNat h) _ = _
  rw [hq.usedIdx, slot_natCast]
  rcases getElem?_concat hi with hold | ⟨rfl, rfl⟩
  · have hlt := (List.getElem?_eq_some_iff.mp hold).1
    rw [update_of_ne (ofNat_ne hlt (by change q.acked ≤ j at hj; omega))]
    exact hq.used j i hj hold
  · rw [update_self]

theorem Sound.reported (hne : UInt16.ofNat q.acked ≠ q.used.idx) :
    ∃ h rest, q.posted.drop q.acked = h :: rest ∧ q.posted.drop (q.acked + 1) = rest ∧
      q.used.ring (Fin.ofNat NUM q.acked) = UInt32.ofNat h ∧ q.acked + 1 ≤ q.posted.length := by
  have hlt : q.acked < q.posted.length := by
    rcases Nat.lt_or_ge q.acked q.posted.length with hlt | hge
    · exact hlt
    · rw [hq.usedIdx, le_antisymm hq.acked hge] at hne
      exact absurd rfl hne
  exact ⟨_, _, drop_eq_getElem_cons hlt, rfl,
    hq.used q.acked _ le_rfl (getElem?_eq_getElem hlt), hlt⟩

end Rings

end Rings

variable {T B : Type} {d d' : Disk T B} {h : Idx} {c : Chain T B}

theorem Chain.Linked.congr (hc : c.Linked d h) (hdesc : ∀ i ∈ c.descs h, d'.desc i = d.desc i) :
    c.Linked d' h where
  nodup := hc.nodup
  first := (hdesc h (by simp [descs])).trans hc.first
  middle := (hdesc c.mid (by simp [descs])).trans hc.middle
  status := (hdesc c.last (by simp [descs])).trans hc.status

theorem Chain.Formatted.congr (hc : c.Formatted d h) (hdesc : ∀ i ∈ c.descs h, d'.desc i = d.desc i)
    (hop : d'.ops h = d.ops h) (hinfo : (d'.info h).b = (d.info h).b) : c.Formatted d' h where
  toLinked := hc.toLinked.congr hdesc
  op := hop.trans hc.op
  info := hinfo.trans hc.info

namespace Disk

/-- Every descriptor is free or in one chain, and every buffer in one chain at most. -/
structure Chains (d : Disk T B) : Prop where
  formatted : ∀ h c, d.chain h = some c → c.Formatted d h
  user : ∀ h c, d.chain h = some c → d.user c.call.b = some c.call.id
  buf : ∀ h h' c c', d.chain h = some c → d.chain h' = some c' → c.call.b = c'.call.b → h = h'
  disjoint : ∀ h h' c c' i, d.chain h = some c → d.chain h' = some c' → i ∈ c.descs h →
    i ∈ c'.descs h' → h = h'
  free : ∀ i, d.free i = false ↔ ∃ h c, d.chain h = some c ∧ i ∈ c.descs h

def Completed (d : Disk T B) (c : Call T B) : Prop := (c.id, c.request) ∈ d.log

structure Sound (d : Disk T B) : Prop where
  panic : d.panic = none
  chains : d.Chains
  rings : d.rings.Sound
  out : ∀ h ∈ d.rings.waiting, ∃ c, d.chain h = some c ∧ d.disk c.call.b = true
  served : ∀ h ∈ d.rings.device.finished ++ d.rings.posted.drop d.rings.acked,
    (d.info h).status = 0 ∧ ∀ c, d.chain h = some c → d.Completed c.call
  done : ∀ h c, d.chain h = some c → d.disk c.call.b = false → d.Completed c.call

theorem Chains.congr (hc : d.Chains) (hdesc : ∀ i, d.free i = false → d'.desc i = d.desc i)
    (hops : d'.ops = d.ops) (hinfo : ∀ h, (d'.info h).b = (d.info h).b) (huser : d'.user = d.user)
    (hchain : d'.chain = d.chain) (hfree : d'.free = d.free) : d'.Chains := by
  constructor
  · intro h c hhc
    rw [hchain] at hhc
    exact (hc.formatted h c hhc).congr (fun i hi => hdesc i ((hc.free i).mpr ⟨h, c, hhc, hi⟩))
      (congrFun hops h) (hinfo h)
  · rw [hchain, huser]
    exact hc.user
  · rw [hchain]
    exact hc.buf
  · rw [hchain]
    exact hc.disjoint
  · rw [hchain, hfree]
    exact hc.free

theorem Chains.free_of_eq (hc : d.Chains) {i : Idx} (hi : d.free i)
    (hchain : d.chain h = some c) : i ∉ c.descs h := by
  intro hmem
  have hbusy := (hc.free i).mpr ⟨h, c, hchain, hmem⟩
  rw [hi] at hbusy
  cases hbusy

theorem Chains.chain_of_free (hc : d.Chains) (hh : d.free h) : d.chain h = none := by
  cases hchain : d.chain h with
  | none => rfl
  | some c => exact absurd (by simp [Chain.descs]) (hc.free_of_eq hh hchain)

section

variable (hs : d.Sound)
include hs

/-- What is not free has not been touched. -/
theorem Sound.of_desc {desc : Idx → Desc B} (hdesc : ∀ i, d.free i = false → desc i = d.desc i) :
    { d with desc := desc }.Sound :=
  { hs with chains := hs.chains.congr hdesc rfl (fun _ => rfl) rfl rfl rfl }

theorem Sound.setRings {q : Rings} (hq : q.Sound)
    (hout : ∀ h ∈ q.waiting, ∃ c, d.chain h = some c ∧ d.disk c.call.b = true)
    (hserved : ∀ h ∈ q.device.finished ++ q.posted.drop q.acked,
      h ∈ d.rings.device.finished ++ d.rings.posted.drop d.rings.acked) :
    { d with rings := q }.Sound :=
  { hs with
    chains := hs.chains.congr (fun _ _ => rfl) rfl (fun _ => rfl) rfl rfl rfl
    rings := hq
    out := hout
    served := fun h hmem => hs.served h (hserved h hmem) }

theorem Sound.put (hh : h ∉ d.rings.waiting) : { d with rings := d.rings.put h }.Sound :=
  hs.setRings (hs.rings.put hh) hs.out fun _ => id

theorem Sound.publish (hchain : d.chain h = some c) (hdisk : d.disk c.call.b)
    (hh : h ∉ d.rings.waiting)
    (hlast : d.rings.avail.ring (slot d.rings.avail.idx) = UInt16.ofNat h) :
    { d with rings := d.rings.publish h }.Sound := by
  refine hs.setRings (hs.rings.publish hh hlast) (fun h' hmem => ?_) fun _ => id
  rcases mem_cons.mp ((Rings.waiting_publish hs.rings).mem_iff.mp hmem) with rfl | hold
  · exact ⟨c, hchain, hdisk⟩
  · exact hs.out h' hold

theorem Sound.take (hne : d.rings.device.seen ≠ d.rings.avail.idx) :
    { d with rings := d.rings.take }.Sound :=
  hs.setRings (hs.rings.take hne)
    (fun h' hmem => hs.out h' ((Rings.waiting_take hs.rings hne).mem_iff.mp hmem)) fun _ => id

theorem Sound.post (hmem : h ∈ d.rings.device.finished) :
    { d with rings := d.rings.post h }.Sound := by
  refine hs.setRings (hs.rings.post hmem)
    (fun h' hmem' => hs.out h' ((Rings.waiting_post hs.rings hmem).mem_iff.mp hmem'))
    fun h' hmem' => ?_
  have hdrop : (d.rings.posted ++ [h]).drop d.rings.acked = d.rings.posted.drop d.rings.acked ++ [h] :=
    drop_append_of_le_length hs.rings.acked
  change h' ∈ d.rings.device.finished.erase h ++ (d.rings.posted ++ [h]).drop d.rings.acked at hmem'
  rw [hdrop, mem_append, mem_append, mem_singleton] at hmem'
  rcases hmem' with herase | hold | rfl
  · exact mem_append_left _ (mem_of_mem_erase herase)
  · exact mem_append_right _ hold
  · exact mem_append_left _ hmem

/-- The device serves a request: it finds the request of the call, and notes the status where the
interrupt handler looks for it. -/
theorem Sound.serve (hserve : d.serve h = some d') :
    d'.Sound ∧ h ∈ d.rings.device.inflight ∧ d'.rings = d.rings.serve h ∧ d'.user = d.user ∧
      d'.chain = d.chain ∧ d'.disk = d.disk ∧ d'.usedIdx = d.usedIdx ∧ d.log <+: d'.log := by
  unfold Disk.serve at hserve
  split_ifs at hserve with hmem
  have hwaits : h ∈ d.rings.waiting := by
    simp only [Rings.waiting, mem_append]
    exact .inl (.inl (.inr hmem))
  obtain ⟨c, hchain, -⟩ := hs.out h hwaits
  rw [request_eq (hs.chains.formatted h c hchain)] at hserve
  cases hserve
  have hlog : d.log ++ ((d.chain h).map fun c' => (c'.call.id, c.call.request)).toList =
      d.log ++ [(c.call.id, c.call.request)] := by
    rw [hchain]
    rfl
  refine ⟨?_, hmem, rfl, rfl, rfl, rfl, rfl, prefix_append ..⟩
  have hinfo : ∀ i, (update d.info h ⟨(d.info h).b, 0⟩ i).b = (d.info i).b := by
    intro i
    by_cases hi : i = h
    · rw [hi, update_self]
    · rw [update_of_ne hi]
  have hmono : ∀ call, d.Completed call → (call.id, call.request) ∈
      d.log ++ ((d.chain h).map fun c' => (c'.call.id, c.call.request)).toList :=
    fun call hcall => mem_append_left _ hcall
  constructor
  · exact hs.panic
  · exact hs.chains.congr (fun _ _ => rfl) rfl hinfo rfl rfl rfl
  · exact hs.rings.serve hmem
  · exact fun h' hmem' => hs.out h' ((Rings.waiting_serve hmem).mem_iff.mp hmem')
  · intro h' hmem'
    by_cases hh : h' = h
    · subst hh
      have hself : update d.info h' ⟨(d.info h').b, 0⟩ h' = ⟨(d.info h').b, 0⟩ := update_self ..
      refine ⟨congrArg Info.status hself, fun c' hc' => ?_⟩
      cases hchain.symm.trans hc'
      change _ ∈ d.log ++ _
      rw [hlog]
      exact mem_append_right _ mem_cons_self
    have hold : h' ∈ d.rings.device.finished ++ d.rings.posted.drop d.rings.acked := by
      change h' ∈ (d.rings.device.finished ++ [h]) ++ d.rings.posted.drop d.rings.acked at hmem'
      simpa [hh] using hmem'
    obtain ⟨hstatus, hdone⟩ := hs.served h' hold
    have hsame : update d.info h ⟨(d.info h).b, 0⟩ h' = d.info h' := update_of_ne hh ..
    exact ⟨(congrArg Info.status hsame).trans hstatus, fun c' hc' => hmono _ (hdone c' hc')⟩
  · exact fun h' c' hc' hdisk => hmono _ (hs.done h' c' hc' hdisk)

end

section Program

variable [DecidableEq B]

theorem Sound.start (hs : d.Sound) {b : B} (hb : d.user b = none) (id : T × Nat) :
    { d with user := update d.user b (some id) }.Sound := by
  have hformatted : ∀ h c, d.chain h = some c →
      c.Formatted { d with user := update d.user b (some id) } h :=
    fun h c hchain => (hs.chains.formatted h c hchain).congr (fun _ _ => rfl) rfl rfl
  refine ⟨hs.panic, ⟨hformatted, ?_, hs.chains.buf, hs.chains.disjoint, hs.chains.free⟩, hs.rings,
    hs.out, hs.served, hs.done⟩
  intro h c hchain
  have hold := hs.chains.user h c hchain
  have hne : c.call.b ≠ b := fun heq => by
    rw [heq, hb] at hold
    cases hold
  exact (update_of_ne hne ..).trans hold

/-- The interrupt handler finds the call whose request has been completed. -/
theorem Sound.complete (hs : d.Sound) (hsync : d.usedIdx = UInt16.ofNat d.rings.acked)
    (hne : d.usedIdx ≠ d.rings.used.idx) :
    ∃ b, d.complete = .ok (b, { d with
        disk := update d.disk b false
        rings := { d.rings with acked := d.rings.acked + 1 } }) ∧
      { d with
        disk := update d.disk b false
        rings := { d.rings with acked := d.rings.acked + 1 } }.Sound := by
  obtain ⟨h, rest, hdrop, hrest, hring, hle⟩ := hs.rings.reported (hsync ▸ hne)
  have hreported : h ∈ d.rings.posted.drop d.rings.acked := by
    rw [hdrop]
    exact mem_cons_self
  have hwaits : h ∈ d.rings.waiting := mem_append_right _ hreported
  obtain ⟨c, hchain, -⟩ := hs.out h hwaits
  obtain ⟨hstatus, hdone⟩ := hs.served h (mem_append_right _ hreported)
  have hinfo := (hs.chains.formatted h c hchain).info
  have hid : (d.rings.used.ring (slot d.usedIdx)).toNat = h := by
    rw [hsync, slot_natCast, hring, toNat_ofNat32]
  have hperm : d.rings.waiting.Perm
      (h :: (d.rings.published.drop d.rings.taken ++ d.rings.device.inflight ++
        d.rings.device.finished ++ d.rings.posted.drop (d.rings.acked + 1))) := by
    rw [Rings.waiting, hdrop, hrest]
    exact perm_middle
  obtain ⟨hnew, hnodup⟩ := nodup_cons.mp (hperm.nodup_iff.mp hs.rings.nodup)
  refine ⟨c.call.b, ?_, ?_⟩
  · simp only [Disk.complete, hid, Fin.isLt, ↓reduceDIte, Fin.eta, hstatus, hinfo]
    rfl
  have hother : ∀ h' c', h' ≠ h → d.chain h' = some c' → c'.call.b ≠ c.call.b :=
    fun h' c' hh hc' heq => hh (hs.chains.buf h' h c' c hc' hchain heq)
  constructor
  · exact hs.panic
  · exact hs.chains.congr (fun _ _ => rfl) rfl (fun _ => rfl) rfl rfl rfl
  · exact { hs.rings with
      nodup := hnodup
      acked := hle
      used := fun j i hj hi => hs.rings.used j i (le_of_succ_le hj) hi }
  · intro h' hmem
    obtain ⟨c', hc', hdisk⟩ := hs.out h' (hperm.mem_iff.mpr (mem_cons_of_mem h hmem))
    have hh : h' ≠ h := fun heq => hnew (heq ▸ hmem)
    exact ⟨c', hc', (update_of_ne (hother h' c' hh hc') ..).trans hdisk⟩
  · intro h' hmem
    apply hs.served h'
    rcases mem_append.mp hmem with hfin | hpost
    · exact mem_append_left _ hfin
    · refine mem_append_right _ ?_
      rw [hdrop]
      exact mem_cons_of_mem h (hrest ▸ hpost)
  · intro h' c' hc' hdisk
    by_cases hh : h' = h
    · exact hdone c' (hh ▸ hc')
    · exact hs.done h' c' hc' ((update_of_ne (hother h' c' hh hc') ..).symm.trans hdisk)

section Format

variable {call : Call T B} {i₀ i₁ i₂ : Idx}

theorem format_desc {i : Idx} (hi : i ∉ [i₀, i₁, i₂]) :
    (d.format call i₀ i₁ i₂).desc i = d.desc i := by
  simp only [mem_cons, not_mem_nil, or_false, not_or] at hi
  simp only [Disk.format]
  rw [update_of_ne hi.2.2, update_of_ne hi.2.1, update_of_ne hi.1]

theorem format_formatted (hnodup : [i₀, i₁, i₂].Nodup) :
    Chain.Formatted ⟨call, i₁, i₂⟩ (d.format call i₀ i₁ i₂) i₀ := by
  have hne := hnodup
  simp only [nodup_cons, mem_cons, not_mem_nil, or_false, not_or,
    not_false_eq_true, nodup_nil, and_true] at hne
  obtain ⟨⟨h01, h02⟩, h12⟩ := hne
  have hinfo : update d.info i₀ ⟨some call.b, 0xff⟩ i₀ = ⟨some call.b, 0xff⟩ := update_self ..
  refine ⟨⟨hnodup, ?_, ?_, ?_⟩, ?_, congrArg Info.b hinfo⟩
  · simp only [Disk.format]
    rw [update_of_ne h02, update_of_ne h01, update_self]
  · simp only [Disk.format]
    rw [update_of_ne h12, update_self]
  all_goals exact update_self ..

theorem chain_format {h : Idx} {c : Chain T B} (hchain : (d.format call i₀ i₁ i₂).chain h = some c) :
    h = i₀ ∧ c = ⟨call, i₁, i₂⟩ ∨ h ≠ i₀ ∧ d.chain h = some c := by
  simp only [Disk.format] at hchain
  by_cases hh : h = i₀
  · rw [hh, update_self] at hchain
    exact .inl ⟨hh, (some.inj hchain).symm⟩
  · rw [update_of_ne hh] at hchain
    exact .inr ⟨hh, hchain⟩

variable (hnodup : [i₀, i₁, i₂].Nodup) (hfree : ∀ i ∈ [i₀, i₁, i₂], d.free i = true)
  (huser : d.user call.b = some call.id) (hnew : ∀ h c, d.chain h = some c → c.call.id ≠ call.id)
include hnodup hfree huser hnew

omit hnodup hfree [DecidableEq B] in
theorem Chains.buf_ne (hc : d.Chains) (hchain : d.chain h = some c) : c.call.b ≠ call.b := by
  intro heq
  have hid := hc.user h c hchain
  rw [heq, huser] at hid
  exact hnew h c hchain (some.inj hid).symm

theorem Chains.format (hc : d.Chains) :
    ({ d with free := without d.free [i₀, i₁, i₂] }.format call i₀ i₁ i₂).Chains := by
  have hapart : ∀ {h c i}, d.chain h = some c → i ∈ c.descs h → i ∉ [i₀, i₁, i₂] :=
    fun hchain hi hmem => hc.free_of_eq (hfree _ hmem) hchain hi
  have hchain0 : ({ d with free := without d.free [i₀, i₁, i₂] }.format call i₀ i₁ i₂).chain i₀ =
      some ⟨call, i₁, i₂⟩ := update_self ..
  have hchains : ∀ {h c}, d.chain h = some c →
      ({ d with free := without d.free [i₀, i₁, i₂] }.format call i₀ i₁ i₂).chain h = some c := by
    intro h c hchain
    have hh : h ≠ i₀ := fun heq => hapart hchain (i := h) (by simp [Chain.descs]) (by simp [heq])
    exact (update_of_ne hh ..).trans hchain
  constructor
  · intro h c hchain
    rcases chain_format hchain with ⟨rfl, rfl⟩ | ⟨hh, hold⟩
    · exact format_formatted hnodup
    · exact (hc.formatted h c hold).congr (fun i hi => format_desc (hapart hold hi))
        (update_of_ne hh ..) (congrArg Info.b (update_of_ne hh ..))
  · intro h c hchain
    rcases chain_format hchain with ⟨rfl, rfl⟩ | ⟨hh, hold⟩
    · exact huser
    · exact hc.user h c hold
  · intro h h' c c' hchain hchain' heq
    rcases chain_format hchain with ⟨rfl, rfl⟩ | ⟨hh, hold⟩ <;>
      rcases chain_format hchain' with ⟨rfl, rfl⟩ | ⟨hh', hold'⟩
    · rfl
    · exact absurd heq.symm (hc.buf_ne huser hnew hold')
    · exact absurd heq (hc.buf_ne huser hnew hold)
    · exact hc.buf h h' c c' hold hold' heq
  · intro h h' c c' i hchain hchain' hi hi'
    rcases chain_format hchain with ⟨rfl, rfl⟩ | ⟨hh, hold⟩ <;>
      rcases chain_format hchain' with ⟨rfl, rfl⟩ | ⟨hh', hold'⟩
    · rfl
    · exact absurd hi (hapart hold' hi')
    · exact absurd hi' (hapart hold hi)
    · exact hc.disjoint h h' c c' i hold hold' hi hi'
  intro i
  change without d.free [i₀, i₁, i₂] i = false ↔ _
  constructor
  · intro hi
    by_cases hmem : i ∈ [i₀, i₁, i₂]
    · exact ⟨i₀, _, hchain0, hmem⟩
    · rw [without, if_neg hmem] at hi
      obtain ⟨h, c, hchain, hmem⟩ := (hc.free i).mp hi
      exact ⟨h, c, hchains hchain, hmem⟩
  · rintro ⟨h, c, hchain, hmem⟩
    rcases chain_format hchain with ⟨rfl, rfl⟩ | ⟨hh, hold⟩
    · exact if_pos hmem
    · rw [without, if_neg (hapart hold hmem)]
      exact (hc.free i).mpr ⟨h, c, hold, hmem⟩

theorem Sound.format (hs : d.Sound) :
    ({ d with free := without d.free [i₀, i₁, i₂] }.format call i₀ i₁ i₂).Sound := by
  have hnone : d.chain i₀ = none := hs.chains.chain_of_free (hfree i₀ (by simp))
  have hdisk : ∀ {h c}, d.chain h = some c → update d.disk call.b true c.call.b =
      d.disk c.call.b := fun hchain => update_of_ne (hs.chains.buf_ne huser hnew hchain) ..
  have hout : ∀ h ∈ d.rings.waiting, h ≠ i₀ := by
    intro h hmem heq
    obtain ⟨c, hchain, -⟩ := hs.out h hmem
    rw [heq, hnone] at hchain
    cases hchain
  constructor
  · exact hs.panic
  · exact hs.chains.format hnodup hfree huser hnew
  · exact hs.rings
  · intro h hmem
    obtain ⟨c, hchain, hbusy⟩ := hs.out h hmem
    exact ⟨c, (update_of_ne (hout h hmem) ..).trans hchain, (hdisk hchain).trans hbusy⟩
  · intro h hmem
    have hwaits := Rings.mem_waiting hmem
    obtain ⟨hstatus, hdone⟩ := hs.served h hmem
    have hinfo : update d.info i₀ ⟨some call.b, 0xff⟩ h = d.info h :=
      update_of_ne (hout h hwaits) ..
    refine ⟨(congrArg Info.status hinfo).trans hstatus, fun c hchain => hdone c ?_⟩
    exact (update_of_ne (hout h hwaits) ..).symm.trans hchain
  · intro h c hchain hidle
    rcases chain_format hchain with ⟨rfl, rfl⟩ | ⟨hh, hold⟩
    · have hbusy : update d.disk call.b true call.b = true := update_self ..
      exact absurd (hbusy.symm.trans hidle) (by decide)
    · exact hs.done h c hold ((hdisk hold).symm.trans hidle)

omit hnodup huser hnew [DecidableEq B] in
theorem Sound.fresh (hs : d.Sound) : i₀ ∉ d.rings.waiting := by
  intro hmem
  obtain ⟨c, hchain, -⟩ := hs.out i₀ hmem
  rw [hs.chains.chain_of_free (hfree i₀ (by simp))] at hchain
  cases hchain

end Format

theorem Sound.finish (hs : d.Sound) (hchain : d.chain h = some c) (hidle : d.disk c.call.b = false) :
    ∃ d', d.finish c.call h = .ok d' ∧ d'.Sound ∧ d'.rings = d.rings ∧
      d'.user = update d.user c.call.b none ∧ d'.chain = update d.chain h none ∧
      d'.usedIdx = d.usedIdx ∧ d'.log = d.log := by
  have hlinked : c.Linked { d with info := update d.info h ⟨none, (d.info h).status⟩ } h :=
    (hs.chains.formatted h c hchain).toLinked.congr fun _ _ => rfl
  have hbusy : ∀ i ∈ c.descs h, d.free i = false :=
    fun i hi => (hs.chains.free i).mpr ⟨h, c, hchain, hi⟩
  obtain ⟨desc, hdesc, hrun⟩ := freeChain_ok hlinked hbusy
  have hfinish : d.finish c.call h = .ok { d with
      info := update d.info h ⟨none, (d.info h).status⟩
      desc := desc
      free := withAll d.free (c.descs h)
      chain := update d.chain h none
      user := update d.user c.call.b none } := by
    rw [Disk.finish, hrun]
    rfl
  refine ⟨_, hfinish, ?_, rfl, rfl, rfl, rfl, rfl⟩
  have hold : ∀ {h' c'}, update d.chain h none h' = some c' → h' ≠ h ∧ d.chain h' = some c' := by
    intro h' c' hc'
    by_cases hh : h' = h
    · rw [hh, update_self] at hc'
      cases hc'
    · rw [update_of_ne hh] at hc'
      exact ⟨hh, hc'⟩
  have hapart : ∀ {h' c' i}, update d.chain h none h' = some c' → i ∈ c'.descs h' →
      i ∉ c.descs h := fun hc' hi hmem =>
    (hold hc').1 (hs.chains.disjoint _ _ _ _ _ (hold hc').2 hchain hi hmem)
  have hout : ∀ h' ∈ d.rings.waiting, h' ≠ h := by
    intro h' hmem heq
    obtain ⟨c', hc', hdisk⟩ := hs.out h' hmem
    rw [heq, hchain] at hc'
    cases hc'
    rw [hidle] at hdisk
    cases hdisk
  constructor
  · exact hs.panic
  · constructor
    · intro h' c' hc'
      obtain ⟨hh, hchain'⟩ := hold hc'
      exact (hs.chains.formatted h' c' hchain').congr (fun i hi => hdesc i (hapart hc' hi)) rfl
        (congrArg Info.b (update_of_ne hh ..))
    · intro h' c' hc'
      obtain ⟨hh, hchain'⟩ := hold hc'
      have hb : c'.call.b ≠ c.call.b := fun heq => hh (hs.chains.buf h' h c' c hchain' hchain heq)
      exact (update_of_ne hb ..).trans (hs.chains.user h' c' hchain')
    · exact fun h' h'' c' c'' hc' hc'' => hs.chains.buf h' h'' c' c'' (hold hc').2 (hold hc'').2
    · exact fun h' h'' c' c'' i hc' hc'' =>
        hs.chains.disjoint h' h'' c' c'' i (hold hc').2 (hold hc'').2
    intro i
    change withAll d.free (c.descs h) i = false ↔ _
    constructor
    · intro hi
      by_cases hmem : i ∈ c.descs h
      · rw [withAll, if_pos hmem] at hi
        cases hi
      rw [withAll, if_neg hmem] at hi
      obtain ⟨h', c', hchain', hi'⟩ := (hs.chains.free i).mp hi
      have hh : h' ≠ h := by
        rintro rfl
        rw [hchain] at hchain'
        cases hchain'
        exact hmem hi'
      exact ⟨h', c', (update_of_ne hh ..).trans hchain', hi'⟩
    · rintro ⟨h', c', hc', hi⟩
      rw [withAll, if_neg (hapart hc' hi)]
      exact (hs.chains.free i).mpr ⟨h', c', (hold hc').2, hi⟩
  · exact hs.rings
  · intro h' hmem
    obtain ⟨c', hc', hdisk⟩ := hs.out h' hmem
    exact ⟨c', (update_of_ne (hout h' hmem) ..).trans hc', hdisk⟩
  · intro h' hmem
    have hwaits := Rings.mem_waiting hmem
    obtain ⟨hstatus, hdone⟩ := hs.served h' hmem
    have hinfo : update d.info h ⟨none, (d.info h).status⟩ h' = d.info h' :=
      update_of_ne (hout h' hwaits) ..
    exact ⟨(congrArg Info.status hinfo).trans hstatus, fun c' hc' => hdone c' (hold hc').2⟩
  · exact fun h' c' hc' hdisk => hs.done h' c' (hold hc').2 hdisk

end Program

end Disk

section Outline

/-- The interrupt handler has seen all that it has acknowledged. -/
def Synced (d : Disk T B) : Prop := d.usedIdx = UInt16.ofNat d.rings.acked

/-- What a call of `virtio_disk_rw` has reached. -/
def Call.At (c : Call T B) (d : Disk T B) : RwPc → Prop
  | .enter => ∀ b, d.user b ≠ some c.id
  | .start => ∀ b, d.user b ≠ some c.id
  | .alloc => d.user c.b = some c.id ∧ ∀ h ch, d.chain h = some ch → ch.call.id ≠ c.id
  | .retry _ => d.user c.b = some c.id ∧ ∀ h ch, d.chain h = some ch → ch.call.id ≠ c.id
  | .ring h => ∃ i₁ i₂, d.chain h = some ⟨c, i₁, i₂⟩
  | .publish h => ∃ i₁ i₂, d.chain h = some ⟨c, i₁, i₂⟩
  | .wait h => ∃ i₁ i₂, d.chain h = some ⟨c, i₁, i₂⟩
  | .wake => d.Completed c
  | .leave => d.Completed c
  | .ret => d.Completed c
  | .dead => False

/-- What holds of the calls of a thread. -/
structure Stands (t : T) (l : Place T B) (d : Disk T B) : Prop where
  fresh : ∀ n, l.calls ≤ n → ∀ b, d.user b ≠ some (t, n)
  rw : ∀ c pc, l.pc = .rw c pc → c.id.1 = t ∧ c.id.2 < l.calls ∧ c.At d pc
  alive : l.pc ≠ .intr .dead

/-- What a thread knows while it holds the lock. -/
def Held (l : Place T B) (d : Disk T B) : Prop :=
  match l.pc with
  | .rw c .start => Synced d ∧ d.user c.b = none
  | .rw c (.ring h) => Synced d ∧ h ∉ d.rings.waiting ∧ d.disk c.b = true
  | .rw c (.publish h) => Synced d ∧ h ∉ d.rings.waiting ∧ d.disk c.b = true ∧
      d.rings.avail.ring (slot d.rings.avail.idx) = UInt16.ofNat h
  | .intr (.woke _) => d.usedIdx + 1 = UInt16.ofNat d.rings.acked
  | .intr .step => d.usedIdx + 1 = UInt16.ofNat d.rings.acked
  | _ => Synced d

def sound (T B : Type) : Assertions T (Disk T B) (Place T B) where
  inv := Disk.Sound
  rest := Synced
  stands := Stands
  held _ := Held

/-- What the thread `t` has changed concerns no call of another thread. -/
structure Others (t : T) (d d' : Disk T B) : Prop where
  user : ∀ b id, id.1 ≠ t → (d'.user b = some id ↔ d.user b = some id)
  chain : ∀ h c, c.call.id.1 ≠ t → (d'.chain h = some c ↔ d.chain h = some c)
  log : d.log <+: d'.log

variable {t u : T} {l : Place T B} {call : Call T B} {calls : Nat}

/-- What is neither taken away nor put in its place is found as before. -/
theorem update_eq_some_iff {α β : Type} [DecidableEq α] {f : α → Option β} {a : α} {x : Option β}
    {y : β} (hold : f a ≠ some y) (hnew : x ≠ some y) (b : α) :
    update f a x b = some y ↔ f b = some y := by
  by_cases hb : b = a
  · simp [hb, hold, hnew]
  · rw [update_of_ne hb]

theorem Others.of_eq (huser : d'.user = d.user) (hchain : d'.chain = d.chain)
    (hlog : d.log <+: d'.log) : Others t d d' where
  user b id _ := by rw [huser]
  chain h c _ := by rw [hchain]
  log := hlog

variable {pc : RwPc}

theorem Call.At.congr (hat : call.At d pc)
    (huser : ∀ b, d'.user b = some call.id ↔ d.user b = some call.id)
    (hchains : ∀ h c, c.call.id = call.id → (d'.chain h = some c ↔ d.chain h = some c))
    (hlog : d.log <+: d'.log) : call.At d' pc := by
  have hnew : (∀ h c, d.chain h = some c → c.call.id ≠ call.id) →
      ∀ h c, d'.chain h = some c → c.call.id ≠ call.id := fun hold h c hc heq =>
    hold h c ((hchains h c heq).mp hc) heq
  have hchain : ∀ h, (∃ i₁ i₂, d.chain h = some ⟨call, i₁, i₂⟩) →
      ∃ i₁ i₂, d'.chain h = some ⟨call, i₁, i₂⟩ := by
    rintro h ⟨i₁, i₂, hc⟩
    exact ⟨i₁, i₂, (hchains h _ rfl).mpr hc⟩
  cases pc with
  | enter | start => exact fun b hb => hat b ((huser b).mp hb)
  | alloc | retry => exact ⟨(huser _).mpr hat.1, hnew hat.2⟩
  | ring h | publish h | wait h => exact hchain h hat
  | wake | leave | ret => exact hlog.subset hat
  | dead => exact hat

theorem Stands.others (hst : Stands u l d) (ho : Others t d d') (hut : u ≠ t) : Stands u l d' where
  fresh n hn b hb := hst.fresh n hn b ((ho.user b (u, n) hut).mp hb)
  rw c pc hpc := by
    obtain ⟨hid, hlt, hat⟩ := hst.rw c pc hpc
    exact ⟨hid, hlt, hat.congr (fun b => ho.user b c.id (hid ▸ hut))
      (fun h c' heq => ho.chain h c' (heq ▸ hid ▸ hut)) ho.log⟩
  alive := hst.alive

theorem Stands.goto {pc' : RwPc} (hst : Stands t ⟨calls, .rw call pc⟩ d)
    (hfresh : ∀ b n, d'.user b = some (t, n) → d.user b = some (t, n) ∨ (t, n) = call.id)
    (hat : call.At d' pc') : Stands t ⟨calls, .rw call pc'⟩ d' := by
  obtain ⟨hid, hlt, -⟩ := hst.rw call pc rfl
  refine ⟨fun n hn b hb => ?_, fun c pc'' hpc => ?_, by simp⟩
  · rcases hfresh b n hb with hold | hnow
    · exact hst.fresh n hn b hold
    · have hn' : n = call.id.2 := congrArg Prod.snd hnow
      change call.id.2 < calls at hlt
      change calls ≤ n at hn
      omega
  · cases hpc
    exact ⟨hid, hlt, hat⟩

theorem Stands.intr (hst : Stands t l d) (huser : d'.user = d.user) {pc : IntrPc B}
    (hpc : pc ≠ .dead) : Stands t ⟨l.calls, .intr pc⟩ d' where
  fresh n hn b hb := hst.fresh n hn b (huser ▸ hb)
  rw c pc heq := by cases heq
  alive heq := by
    cases heq
    exact hpc rfl

variable [DecidableEq B]

theorem virtioDiskRw_sound {a : Act (Disk T B) RwPc (Chan B)} (hs : d.Sound)
    (hst : Stands t ⟨calls, .rw call pc⟩ d)
    (hheld : ActInside a → Held ⟨calls, .rw call pc⟩ d) (h : virtioDiskRw d call pc = some a) :
    (sound T B).After t d (a.map fun pc => ⟨calls, .rw call pc⟩) := by
  obtain ⟨hid, hlt, hat⟩ := hst.rw call pc rfl
  have hsame : ∀ {d' : Disk T B}, d'.user = d.user → ∀ b n, d'.user b = some (t, n) →
      d.user b = some (t, n) ∨ (t, n) = call.id := fun huser b n hb => .inl (huser ▸ hb)
  have hmine : ∀ {id : T × Nat}, id.1 ≠ t → some call.id ≠ some id :=
    fun hne heq => hne (some.inj heq ▸ hid)
  have hother : ∀ {ch : Chain T B} {i₁ i₂}, ch.call.id.1 ≠ t → some ⟨call, i₁, i₂⟩ ≠ some ch := by
    rintro ch i₁ i₂ hne ⟨⟩
    exact hne hid
  cases pc with
  | enter =>
    rw [virtioDiskRw] at h
    split_ifs at h with huser
    cases h
    exact fun hrest => ⟨hst.goto (hsame rfl) hat, hrest, huser⟩
  | start =>
    cases h
    obtain ⟨hsync, huser⟩ := hheld trivial
    refine ⟨hs.start huser call.id, hst.goto ?_ ?_, hsync, fun u m hut hu => hu.others ?_ hut⟩
    · intro b n hb
      by_cases hbb : b = call.b
      · simp only [hbb, update_self, some.injEq] at hb
        exact .inr hb.symm
      · exact .inl ((update_of_ne hbb ..).symm.trans hb)
    · refine ⟨update_self .., fun h' ch hch heq => ?_⟩
      exact hat ch.call.b (heq ▸ hs.chains.user h' ch hch)
    · refine ⟨fun b id hne => update_eq_some_iff (by simp [huser]) (hmine hne) b,
        fun _ _ _ => Iff.rfl, prefix_rfl⟩
  | alloc =>
    have hsync : Synced d := hheld (by
      rw [virtioDiskRw] at h
      split at h <;> cases h <;> trivial)
    obtain ⟨huser, hnew⟩ := hat
    rw [virtioDiskRw] at h
    rcases d.alloc3Desc_cases with ⟨i₀, i₁, i₂, hnodup, hfree, heq⟩ | ⟨desc, hdesc, heq⟩
    · rw [heq] at h
      cases h
      have hnone : d.chain i₀ = none := hs.chains.chain_of_free (hfree i₀ (by simp))
      have hout : i₀ ∉ d.rings.waiting := hs.fresh hfree
      refine ⟨hs.format hnodup hfree huser hnew, hst.goto (hsame rfl) ⟨i₁, i₂, update_self ..⟩,
        ⟨hsync, hout, update_self ..⟩, fun u m hut hu => hu.others ?_ hut⟩
      exact ⟨fun _ _ _ => Iff.rfl,
        fun h' ch hne => update_eq_some_iff (by simp [hnone]) (hother hne) h', prefix_rfl⟩
    · rw [heq] at h
      cases h
      exact ⟨hs.of_desc hdesc, hst.goto (hsame rfl) ⟨huser, hnew⟩, hsync,
        fun u m hut hu => hu.others (.of_eq rfl rfl prefix_rfl) hut⟩
  | retry woke =>
    cases woke with
    | true =>
      cases h
      exact ⟨hst.goto (hsame rfl) hat, hheld trivial⟩
    | false =>
      cases h
      exact ⟨hheld trivial, hst.goto (hsame rfl) hat, fun _ _ hrest _ => hrest⟩
  | ring i₀ =>
    cases h
    obtain ⟨hsync, hout, hbusy⟩ := hheld trivial
    exact ⟨hs.put hout, hst.goto (hsame rfl) hat, ⟨hsync, hout, hbusy, Rings.put_last ..⟩,
      fun u m hut hu => hu.others (.of_eq rfl rfl prefix_rfl) hut⟩
  | publish i₀ =>
    cases h
    obtain ⟨hsync, hout, hbusy, hlast⟩ := hheld trivial
    obtain ⟨i₁, i₂, hchain⟩ := hat
    exact ⟨hs.publish hchain hbusy hout hlast, hst.goto (hsame rfl) ⟨i₁, i₂, hchain⟩, hsync,
      fun u m hut hu => hu.others (.of_eq rfl rfl prefix_rfl) hut⟩
  | wait i₀ =>
    obtain ⟨i₁, i₂, hchain⟩ := hat
    rw [virtioDiskRw] at h
    by_cases hbusy : d.disk call.b
    · rw [if_pos hbusy] at h
      cases h
      exact ⟨hheld trivial, hst.goto (hsame rfl) ⟨i₁, i₂, hchain⟩, fun _ _ hrest _ => hrest⟩
    have hidle : d.disk call.b = false := by simpa using hbusy
    obtain ⟨d', hfinish, hs', hrings, huser, hchains, hused, hlog⟩ := hs.finish hchain hidle
    rw [if_neg hbusy, hfinish] at h
    cases h
    have hsync : Synced d := hheld trivial
    have hdone : d'.Completed call := by
      rw [Disk.Completed, hlog]
      exact hs.done i₀ _ hchain hidle
    have huser0 := hs.chains.user i₀ _ hchain
    refine ⟨hs', hst.goto ?_ hdone, ?_, fun u m hut hu => hu.others ?_ hut⟩
    · intro b n hb
      rw [huser] at hb
      by_cases hbb : b = call.b
      · rw [hbb, update_self] at hb
        cases hb
      · rw [update_of_ne hbb] at hb
        exact .inl hb
    · change d'.usedIdx = UInt16.ofNat d'.rings.acked
      rw [hused, hrings]
      exact hsync
    refine ⟨fun b id hne => ?_, fun h' ch hne => ?_, hlog ▸ prefix_rfl⟩
    · rw [huser]
      exact update_eq_some_iff (huser0 ▸ hmine hne) (by simp) b
    · rw [hchains]
      exact update_eq_some_iff (hchain ▸ hother hne) (by simp) h'
  | wake =>
    cases h
    exact ⟨hst.goto (hsame rfl) hat, hheld trivial⟩
  | leave =>
    cases h
    exact ⟨hheld trivial, hst.goto (hsame rfl) hat⟩
  | ret | dead => cases h

theorem virtioDiskIntr_sound {pc : IntrPc B} {a : Act (Disk T B) (IntrPc B) (Chan B)} (hs : d.Sound)
    (hst : Stands t ⟨calls, .intr pc⟩ d) (hheld : ActInside a → Held ⟨calls, .intr pc⟩ d)
    (h : virtioDiskIntr d pc = some a) :
    (sound T B).After t d (a.map fun pc => ⟨calls, .intr pc⟩) := by
  have hintr : ∀ (d' : Disk T B) {pc : IntrPc B}, d'.user = d.user → pc ≠ .dead →
      Stands t ⟨calls, .intr pc⟩ d' := fun _ _ huser hpc => hst.intr huser hpc
  cases pc with
  | enter =>
    cases h
    exact fun hrest => ⟨hintr d rfl (by simp), hrest⟩
  | loop =>
    have hsync : Synced d := hheld (by
      rw [virtioDiskIntr] at h
      split_ifs at h
      · split at h <;> cases h <;> trivial
      · cases h
        trivial)
    rw [virtioDiskIntr] at h
    by_cases hne : d.usedIdx ≠ d.rings.used.idx
    · obtain ⟨b, hcomplete, hs'⟩ := hs.complete hsync hne
      rw [if_pos hne, hcomplete] at h
      cases h
      refine ⟨hs', hintr _ rfl (by simp), ?_, fun u m hut hu =>
        hu.others (.of_eq rfl rfl prefix_rfl) hut⟩
      change d.usedIdx + 1 = UInt16.ofNat (d.rings.acked + 1)
      rw [hsync, UInt16.ofNat_add]
      rfl
    · rw [if_neg hne] at h
      cases h
      exact ⟨hsync, hintr d rfl (by simp)⟩
  | woke b =>
    cases h
    exact ⟨hintr d rfl (by simp), hheld trivial⟩
  | step =>
    cases h
    have hsync := hheld trivial
    refine ⟨⟨hs.panic, hs.chains.congr (fun _ _ => rfl) rfl (fun _ => rfl) rfl rfl rfl, hs.rings,
      hs.out, hs.served, hs.done⟩, hintr _ rfl (by simp), hsync, fun u m hut hu =>
        hu.others (.of_eq rfl rfl prefix_rfl) hut⟩
  | ret | dead => cases h

omit [DecidableEq B] in
/-- What a step of the device has to leave alone. -/
theorem device_kept (hs : d'.Sound) (huser : d'.user = d.user) (hchain : d'.chain = d.chain)
    (hdisk : d'.disk = d.disk) (hused : d'.usedIdx = d.usedIdx) (hlog : d.log <+: d'.log)
    (hacked : d'.rings.acked = d.rings.acked) (havail : d'.rings.avail = d.rings.avail)
    (hwaiting : d'.rings.waiting.Perm d.rings.waiting) :
    (sound T B).inv d' ∧ ((sound T B).rest d → (sound T B).rest d') ∧
      (∀ t l, (sound T B).stands t l d → (sound T B).stands t l d') ∧
      ∀ t l, (sound T B).stands t l d → (sound T B).held t l d → (sound T B).held t l d' := by
  have hsync : Synced d ↔ Synced d' := by rw [Synced, Synced, hused, hacked]
  refine ⟨hs, hsync.mp, fun t l hst => ?_, fun t l _ hheld => ?_⟩
  · refine ⟨fun n hn b hb => hst.fresh n hn b (huser ▸ hb), fun c pc hpc => ?_, hst.alive⟩
    obtain ⟨hid, hlt, hat⟩ := hst.rw c pc hpc
    exact ⟨hid, hlt, hat.congr (fun b => by rw [huser]) (fun h c' _ => by rw [hchain]) hlog⟩
  change Held l d at hheld
  change Held l d'
  unfold Held at hheld ⊢
  split at hheld
  · exact ⟨hsync.mp hheld.1, huser ▸ hheld.2⟩
  · exact ⟨hsync.mp hheld.1, hwaiting.mem_iff.not.mpr hheld.2.1, hdisk ▸ hheld.2.2⟩
  · refine ⟨hsync.mp hheld.1, hwaiting.mem_iff.not.mpr hheld.2.1, hdisk ▸ hheld.2.2.1, ?_⟩
    rw [havail]
    exact hheld.2.2.2
  · rw [hused, hacked]
    exact hheld
  · rw [hused, hacked]
    exact hheld
  · exact hsync.mp hheld

/-- The outline of the driver. -/
def soundOutline (T B : Type) [DecidableEq T] [DecidableEq B] :
    (client T B).Outline fun _ => True where
  toAssertions := sound T B
  next := by
    intro t b d l i a _ hs hst hheld h
    obtain ⟨calls, pc⟩ := l
    cases i with
    | rw b blockno write =>
      simp only [client, next] at h
      split_ifs at h
      cases h
      refine ⟨fun n hn => hst.fresh n (Nat.le_of_succ_le hn), fun c pc hpc => ?_, by simp⟩
      cases hpc
      exact ⟨rfl, Nat.lt_succ_self _, hst.fresh _ le_rfl⟩
    | intr =>
      simp only [client, next] at h
      split_ifs at h
      cases h
      exact hst.intr rfl (by simp)
    | go =>
      cases pc with
      | idle => cases h
      | rw c pc =>
        obtain ⟨a', ha', rfl⟩ := Option.map_eq_some_iff.mp h
        exact virtioDiskRw_sound hs hst (fun hin => hheld (actInside_map.mpr hin)) ha'
      | intr pc =>
        obtain ⟨a', ha', rfl⟩ := Option.map_eq_some_iff.mp h
        exact virtioDiskIntr_sound hs hst (fun hin => hheld (actInside_map.mpr hin)) ha'
    | take => cases h
    | serve j => cases h
    | post j => cases h
  device := by
    intro d i d' _ hs h
    cases i with
    | rw b blockno write => cases h
    | intr => cases h
    | go => cases h
    | take =>
      simp only [client, Disk.take] at h
      split_ifs at h with hne
      cases h
      exact device_kept (hs.take hne) rfl rfl rfl rfl prefix_rfl rfl rfl
        (Rings.waiting_take hs.rings hne)
    | serve j =>
      obtain ⟨hs', hmem, hrings, huser, hchain, hdisk, hused, hlog⟩ := hs.serve h
      exact device_kept hs' huser hchain hdisk hused hlog (by rw [hrings]; rfl)
        (by rw [hrings]; rfl) (hrings ▸ Rings.waiting_serve hmem)
    | post j =>
      simp only [client, Disk.post] at h
      split_ifs at h with hmem
      cases h
      exact device_kept (hs.post hmem) rfl rfl rfl rfl prefix_rfl rfl rfl
        (Rings.waiting_post hs.rings hmem)

omit [DecidableEq B] in
theorem sound_new : (Disk.new : Disk T B).Sound := by
  refine ⟨rfl, ⟨?_, ?_, ?_, ?_, ?_⟩, ?_, ?_, ?_, ?_⟩
  · nofun
  · nofun
  · nofun
  · nofun
  · intro i
    simp [Disk.new]
  · exact ⟨nodup_nil, rfl, le_rfl, le_rfl, rfl, rfl, rfl, fun j h _ hj => by simp [Disk.new] at hj,
      fun j h _ hj => by simp [Disk.new] at hj⟩
  all_goals nofun

variable [DecidableEq T]

/-- The books of the driver. No panic is reached; every descriptor is free or in exactly one chain,
linked as it was formatted; a failed allocation leaves `free` alone; at most `NUM` requests are
published and not completed, and the rings hold every entry that has not been taken out; and
`virtio_disk_rw` returns only after the device has completed its request. -/
theorem virtio_bookkeeping {ls : List (Label T (Input B))} {s : Sys T B}
    (h : Run (client T B).Step (Sys.init T B) ls s) :
    s.data.panic = none ∧
      (∀ i, (s.data.free i = true ∧ ∀ h c, s.data.chain h = some c → i ∉ c.descs h) ∨
        (s.data.free i = false ∧ ∃! h, ∃ c, s.data.chain h = some c ∧ i ∈ c.descs h)) ∧
      (∀ h c, s.data.chain h = some c → c.Formatted s.data h) ∧
      (∀ d', s.data.alloc3Desc = .ok (none, d') → d'.free = s.data.free) ∧
      (s.data.rings.posted.length ≤ s.data.rings.published.length ∧
        s.data.rings.published.length ≤ s.data.rings.posted.length + NUM) ∧
      ((∀ j h, s.data.rings.taken ≤ j → s.data.rings.published[j]? = some h →
          s.data.rings.avail.ring (Fin.ofNat NUM j) = UInt16.ofNat h) ∧
        ∀ j h, s.data.rings.acked ≤ j → s.data.rings.posted[j]? = some h →
          s.data.rings.used.ring (Fin.ofNat NUM j) = UInt32.ofNat h) ∧
      ∀ t c, (s.loc t).pc = .rw c .ret → (c.id, c.request) ∈ s.data.log := by
  have hok : ∀ l : Label T (Input B), LabelOk (fun _ => True) l := fun l => by cases l <;> trivial
  have hidle : ∀ t, Stands t ⟨0, .idle⟩ (Disk.new : Disk T B) := fun t =>
    ⟨fun _ _ _ hb => (by cases hb), fun c pc hpc => (by cases hpc), fun heq => (by cases heq)⟩
  have hrun := h.mono fun _ l _ hstep => (⟨hstep, hok l⟩ : _ ∧ LabelOk (fun _ => True) l)
  have hholds := (soundOutline T B).run hrun sound_new rfl hidle
  have hs : s.data.Sound := hholds.inv
  refine ⟨hs.panic, fun i => ?_, hs.chains.formatted, fun d' hd' => ?_, ?_,
    ⟨hs.rings.avail, hs.rings.used⟩, fun t c hpc => ((hholds.stands t).rw c _ hpc).2.2⟩
  · cases hfree : s.data.free i with
    | true => exact .inl ⟨rfl, fun h c hchain => hs.chains.free_of_eq hfree hchain⟩
    | false =>
      obtain ⟨h, c, hchain, hmem⟩ := (hs.chains.free i).mp hfree
      refine .inr ⟨rfl, h, ⟨c, hchain, hmem⟩, ?_⟩
      rintro h' ⟨c', hchain', hmem'⟩
      exact hs.chains.disjoint h' h c' c i hchain' hchain hmem' hmem
  · rcases s.data.alloc3Desc_cases with ⟨i₀, i₁, i₂, -, -, heq⟩ | ⟨desc, -, heq⟩
    · rw [heq] at hd'
      cases hd'
    · rw [heq] at hd'
      cases hd'
      rfl
  · have hcount := hs.rings.count
    have htaken := hs.rings.taken
    have hlen := hs.rings.length_le
    rw [Rings.length_waiting] at hlen
    omega

/-- One request goes through both rings, and its call returns. -/
theorem virtio_bookkeeping_one :
    ∃ s : Sys Bool Unit, (s.loc false).pc.returned = true ∧ s.data.rings.posted = [0] ∧
      s.data.panic = none ∧ s.data.rings.posted.length ≤ s.data.rings.published.length := by
  have hex : (exec (guarded (client Bool Unit).step fun _ _ => True) (Sys.init Bool Unit)
      [.run false (.rw () 5 true), .run false .go, .run false .go, .run false .go, .run false .go,
        .run false .go, .run false .go, .device .take, .device (.serve 0), .device (.post 0),
        .run true .intr, .run true .go, .run true .go, .run true .go, .run true .go, .run true .go,
        .run false .go, .run false .go, .run false .go, .run false .go]).map
      (fun s => ((s.loc false).pc.returned, s.data.rings.posted)) = some (true, [0]) := by
    decide +kernel
  obtain ⟨s, hs, hval⟩ := Option.map_eq_some_iff.mp hex
  have hrun : Run (client Bool Unit).Step (Sys.init Bool Unit) _ s :=
    (run_of_exec_guarded hs).mono fun _ _ _ hstep => hstep.1
  obtain ⟨hpanic, -, -, -, hlen, -⟩ := virtio_bookkeeping hrun
  exact ⟨s, congrArg Prod.fst hval, congrArg Prod.snd hval, hpanic, hlen.1⟩

end Outline

end Xv6.Virtio
