/-
What the re-sequencing buffer hands out on any run of distinct seqs, also when an arrival is misplaced.

A misplaced arrival (`Reorder.Misplaces`) can only happen on reaching the ceiling, after which the array is never rehashed
again; its slot is then not the one of its seq, so the flush loop stops in front of it and it waits for `flushRemaining`.
`Loose` is the representation without the placement at the ceiling, and it is kept by every call: the output followed by
`flushRemaining` is strictly increasing in seq, and what is missing from it was evicted and counted.
-/
import Mathlib.Tactic
import YouPipe.State.Reorder

namespace YouPipe.Reorder

open YouPipe.Word YouPipe.SlotTable

variable {α : Type}

/-- the slot of `seq`, as `insert_into` probes it; an array not yet materialised has only free slots -/
def ReorderBuffer.ownSlot (b : ReorderBuffer α) (seq : ℕ) : Slot α := (b.slots[seq &&& b.mask]?).getD emptySlot

/-- the buffer holds exactly the pairs `h`; below the ceiling each is in its own slot -/
structure Loose (b : ReorderBuffer α) (h : List (ℕ × α)) : Prop where
  pow : ∃ k, k ≤ 63 ∧ b.mask + 1 = 2 ^ k
  maxPow : ∃ j, j ≤ 63 ∧ b.maxCapacity = 2 ^ j
  le : b.mask + 1 ≤ b.maxCapacity
  size : b.slots = [] ∨ b.slots.length = b.mask + 1
  placed : b.mask + 1 < b.maxCapacity → Placed seqOf b.slots
  live : (live seqOf b.slots).Perm (h.map entry)
  small : ∀ p ∈ h, p.1 < maxVal
  len : b.len = h.length

variable {b : ReorderBuffer α} {h : List (ℕ × α)}

theorem Core.loose (hb : Core b h) : Loose b h :=
  ⟨hb.pow, hb.maxPow, hb.le, hb.size, fun _ => hb.placed, hb.live, hb.small, hb.len⟩

namespace Loose

theorem core (hb : Loose b h) (hlt : b.mask + 1 < b.maxCapacity) : Core b h :=
  ⟨hb.pow, hb.maxPow, hb.le, hb.size, hb.placed hlt, hb.live, hb.small, hb.len⟩

theorem length_eq (hb : Loose b h) (hne : b.slots ≠ []) : b.slots.length = b.mask + 1 := hb.size.resolve_left hne

theorem slot_exists (hb : Loose b h) (hne : b.slots ≠ []) (s : ℕ) : ∃ slot, b.slots[s &&& b.mask]? = some slot := by
  obtain ⟨k, -, hk⟩ := hb.pow
  exact probe_exists hk (hb.length_eq hne) s

theorem occupied (hb : Loose b h) {i : ℕ} {slot : Slot α} (hs : b.slots[i]? = some slot) (ht : slot.tag ≠ UNOCCUPIED) :
    ∃ p ∈ h, slot = entry p := by
  obtain ⟨k, hk⟩ := Option.ne_none_iff_exists'.1 fun hn => ht (seqOf_none.1 hn)
  have hmem : slot ∈ SlotTable.live seqOf b.slots := (mem_live seqOf).2 ⟨List.mem_of_getElem? hs, k, hk⟩
  obtain ⟨p, hp, rfl⟩ := List.mem_map.1 (hb.live.mem_iff.1 hmem)
  exact ⟨p, hp, rfl⟩

/-- every pair is in some slot -/
theorem entry_mem (hb : Loose b h) {p : ℕ × α} (hp : p ∈ h) : entry p ∈ b.slots :=
  ((mem_live seqOf).1 (hb.live.mem_iff.2 (List.mem_map_of_mem hp))).1

/-- emptying the slot of one pair leaves the others -/
theorem clear {h' : List (ℕ × α)} (hb : Loose b h) {i : ℕ} {p : ℕ × α} (hslot : b.slots[i]? = some (entry p))
    (hperm : h.Perm (p :: h')) (n d : ℕ) :
    Loose { b with slots := b.slots.set i emptySlot, len := b.len - 1, nextExpected := n, dropped := d } h' := by
  have hne : b.slots ≠ [] := by rintro hnil; simp [hnil] at hslot
  have hp : p ∈ h := hperm.mem_iff.2 List.mem_cons_self
  refine ⟨hb.pow, hb.maxPow, hb.le, Or.inr ?_, fun hlt => ?_, ?_, ?_, ?_⟩
  · simp [hb.length_eq hne]
  · exact placed_set seqOf (hb.placed hlt) _ _ fun k hk => by simp [seqOf_emptySlot] at hk
  · have h1 := live_clear seqOf hslot seqOf_emptySlot (seqOf_entry (hb.small p hp))
    exact (h1.symm.trans (hb.live.trans (hperm.map entry))).cons_inv
  · exact fun q hq => hb.small q (hperm.mem_iff.2 (List.mem_cons_of_mem _ hq))
  · have h1 := hperm.length_eq
    have h2 := hb.len
    simp only [List.length_cons] at h1 ⊢
    omega

/-- writing into a free slot adds the pair; below the ceiling the slot must be its own -/
theorem write_free (hb : Loose b h) {seq idx : ℕ} (hs : seq < maxVal) (item : α) {slot : Slot α}
    (hslot : b.slots[idx]? = some slot) (hfree : slot.tag = UNOCCUPIED)
    (hidx : b.mask + 1 < b.maxCapacity → idx = seq &&& b.mask) : Loose (b.write idx seq item) ((seq, item) :: h) := by
  have hne : b.slots ≠ [] := by rintro hnil; simp [hnil] at hslot
  have hkey : seqOf (entry (seq, item)) = some seq := seqOf_entry (p := (seq, item)) hs
  refine ⟨hb.pow, hb.maxPow, hb.le, Or.inr ?_, fun hlt => ?_, ?_, ?_, ?_⟩
  · simp [ReorderBuffer.write, hb.length_eq hne]
  · have hown := hidx hlt
    subst hown
    exact (Reorder.write_free (hb.core hlt) hs item hslot hfree).placed
  · simp only [ReorderBuffer.write, entry_eq hs, List.map_cons]
    exact (live_fill seqOf hslot (seqOf_none.2 hfree) hkey).trans (hb.live.cons _)
  · intro p hp
    rcases List.mem_cons.1 hp with rfl | hp
    · exact hs
    · exact hb.small p hp
  · simp [ReorderBuffer.write, hb.len]

/-- evicting an occupied slot and writing into it replaces the pair it held; below the ceiling the slot must be its own -/
theorem write_evicted (hb : Loose b h) {seq idx : ℕ} (hs : seq < maxVal) {p : ℕ × α} (hp : p ∈ h)
    (hslot : b.slots[idx]? = some (entry p)) (hown : b.mask + 1 < b.maxCapacity → idx = seq &&& b.mask) :
    ∃ b' h', b.evict idx (entry p) = .ok b' ∧ h.Perm (p :: h') ∧ b'.slots ≠ [] ∧ b'.nextExpected = b.nextExpected ∧
      b'.dropped = b.dropped + 1 ∧ ∀ item, Loose (b'.write idx seq item) ((seq, item) :: h') := by
  obtain ⟨l, r, rfl⟩ := List.append_of_mem hp
  have hperm : (l ++ p :: r).Perm (p :: (l ++ r)) := List.perm_middle
  have hclear := hb.clear hslot hperm b.nextExpected (b.dropped + 1)
  have hidx : idx < b.slots.length := (List.getElem?_eq_some_iff.1 hslot).1
  refine ⟨_, l ++ r, rfl, hperm, ?_, rfl, rfl, fun item => ?_⟩
  · intro hnil
    have := congrArg List.length hnil
    simp only [List.length_set, List.length_nil] at this
    omega
  · have hempty : (b.slots.set idx emptySlot)[idx]? = some emptySlot := by simp [hidx]
    have hwrite := hclear.write_free hs item hempty rfl hown
    simpa [ReorderBuffer.write, List.set_set] using hwrite

/-- every arrival that is held nowhere but in its own slot gets a slot; at most one pair is evicted for it, and counted, and an
arrival that finds its slot free or its own evicts nothing of another seq -/
theorem claimSlot (hb : Loose b h) (hne : b.slots ≠ []) {seq : ℕ} (hs : seq < maxVal)
    (hown : ∀ p ∈ h, p.1 = seq → b.ownSlot seq = entry p) (hno : b.claimSlot seq ≠ .error .capacityOverflow) :
    ∃ b' idx h' ev, b.claimSlot seq = .ok (b', idx) ∧ h.Perm (ev ++ h') ∧ b'.slots ≠ [] ∧
      b'.nextExpected = b.nextExpected ∧ b'.dropped = b.dropped + ev.length ∧
      (∀ item, Loose (b'.write idx seq item) ((seq, item) :: h')) ∧ (∀ p ∈ h, p.1 = seq → p ∈ ev) ∧
      ((b.ownSlot seq).tag = UNOCCUPIED ∨ (b.ownSlot seq).tag = seq + 1 → ∀ e ∈ ev, e.1 = seq) := by
  obtain ⟨slot, hslot⟩ := hb.slot_exists hne seq
  have hslotOwn : b.ownSlot seq = slot := by simp [ReorderBuffer.ownSlot, hslot]
  have htagval : wrappingAdd seq 1 = seq + 1 := wrappingAdd_of_lt (maxVal_lt hs)
  rw [hslotOwn]
  by_cases hfree : slot.tag = UNOCCUPIED
  · have hnot : ∀ p ∈ h, p.1 = seq → p ∈ ([] : List (ℕ × α)) := by
      intro p hp hps
      rw [← hslotOwn, hown p hp hps] at hfree
      exact absurd hfree (Nat.succ_ne_zero _)
    refine ⟨b, seq &&& b.mask, h, [], ?_, by simp, hne, rfl, by simp,
      fun item => hb.write_free hs item hslot hfree fun _ => rfl, hnot, by simp⟩
    simp [ReorderBuffer.claimSlot, slotAt_ok.2 hslot, bind, Except.bind, hfree]
  obtain ⟨p, hp, rfl⟩ := hb.occupied hslot hfree
  have hsame : ∀ q ∈ h, q.1 = seq → q = p := fun q hq hqs => entry_injective ((hown q hq hqs).symm.trans hslotOwn)
  by_cases hdup : p.1 = seq
  · -- a duplicate of the pair in the slot: the older item goes
    obtain ⟨b', h', hev, hperm, hne', hn, hd, hw⟩ := hb.write_evicted hs hp hslot fun _ => rfl
    have htag : (entry p).tag = seq + 1 := by simp [entry, hdup]
    have hocc : seq + 1 ≠ UNOCCUPIED := Nat.succ_ne_zero seq
    refine ⟨b', seq &&& b.mask, h', [p], ?_, by simpa using hperm, hne', hn, by simp [hd], hw,
      fun q hq hqs => by rw [hsame q hq hqs]; exact List.mem_singleton_self p, fun _ e he => by
        rw [List.mem_singleton.1 he, hdup]⟩
    simp [ReorderBuffer.claimSlot, slotAt_ok.2 hslot, bind, Except.bind, htagval, htag, hocc, hev]
  -- another seq is in the slot
  have htag : (entry p).tag ≠ seq + 1 := by simpa [entry] using hdup
  have hnot : ∀ ev : List (ℕ × α), ∀ q ∈ h, q.1 = seq → q ∈ ev := fun ev q hq hqs =>
    absurd (hsame q hq hqs ▸ hqs) hdup
  have hvac : ∀ ev : List (ℕ × α), (entry p).tag = UNOCCUPIED ∨ (entry p).tag = seq + 1 → ∀ e ∈ ev, e.1 = seq :=
    fun ev hc => absurd hc (not_or.2 ⟨hfree, htag⟩)
  rcases Nat.lt_or_eq_of_le hb.le with hlt | hceil
  · -- below the ceiling the growth keeps the placement
    obtain ⟨j, hj63, hj⟩ := hb.maxPow
    have hfuel : b.maxCapacity < (b.mask + 1) * 2 ^ growBound := by
      calc b.maxCapacity = 2 ^ j := hj
        _ < 2 ^ growBound := Nat.pow_lt_pow_right (by norm_num) (by unfold growBound; omega)
        _ ≤ (b.mask + 1) * 2 ^ growBound := Nat.le_mul_of_pos_left _ (Nat.succ_pos _)
    have hroom : b.growFor growBound seq ≠ .error .capacityOverflow := by
      intro hpan
      exact hno (by simp [ReorderBuffer.claimSlot, slotAt_ok.2 hslot, bind, Except.bind, hfree, htagval, htag, hpan])
    obtain ⟨free, b', slot', hgrow, hb', hne', hsame', hslot', hiff, hcap⟩ :=
      growFor_spec seq growBound b (hb.core hlt) hne hfuel hroom
    cases free with
    | true =>
      have hfree' := hiff.1 rfl
      refine ⟨b', seq &&& b'.mask, h, [], ?_, by simp, hne', hsame'.next, by simp [hsame'.dropped],
        fun item => (Reorder.write_free hb' hs item hslot' hfree').loose, hnot [], hvac []⟩
      simp [ReorderBuffer.claimSlot, slotAt_ok.2 hslot, slotAt_ok.2 hslot', bind, Except.bind, hfree, htagval, htag, hgrow,
        hfree']
    | false =>
      -- the index of the old mask is used in the array at the ceiling
      have hidx : seq &&& b.mask < b'.slots.length := by
        have h1 := (List.getElem?_eq_some_iff.1 hslot).1
        have h2 := hb.length_eq hne
        have h3 := hb'.length_eq hne'
        have h4 := hcap rfl
        have h5 := hsame'.maxCap
        omega
      have hroof : b'.mask + 1 < b'.maxCapacity → seq &&& b.mask = seq &&& b'.mask := fun hlt' =>
        absurd (hcap rfl) (Nat.ne_of_lt hlt')
      obtain ⟨old, hold⟩ : ∃ old, b'.slots[seq &&& b.mask]? = some old := ⟨_, List.getElem?_eq_getElem hidx⟩
      by_cases hfree' : old.tag = UNOCCUPIED
      · refine ⟨b', seq &&& b.mask, h, [], ?_, by simp, hne', hsame'.next, by simp [hsame'.dropped],
          fun item => hb'.loose.write_free hs item hold hfree' hroof, hnot [], hvac []⟩
        simp [ReorderBuffer.claimSlot, slotAt_ok.2 hslot, slotAt_ok.2 hold, bind, Except.bind, hfree, htagval, htag, hgrow,
          hfree']
      · obtain ⟨q, hq, rfl⟩ := hb'.loose.occupied hold hfree'
        obtain ⟨b'', h'', hev, hperm, hne'', hn'', hd'', hw⟩ := hb'.loose.write_evicted hs hq hold hroof
        refine ⟨b'', seq &&& b.mask, h'', [q], ?_, by simpa using hperm, hne'', by rw [hn'', hsame'.next],
          by simp [hd'', hsame'.dropped], hw, hnot [q], hvac [q]⟩
        simp [ReorderBuffer.claimSlot, slotAt_ok.2 hslot, slotAt_ok.2 hold, bind, Except.bind, hfree, htagval, htag, hgrow,
          hfree', hev]
  · have hgrow : b.growFor growBound seq = _ := growFor_ceiling hceil.ge hslot 64
    obtain ⟨b'', h'', hev, hperm, hne'', hn'', hd'', hw⟩ := hb.write_evicted hs hp hslot fun _ => rfl
    refine ⟨b'', seq &&& b.mask, h'', [p], ?_, by simpa using hperm, hne'', hn'', by simp [hd''], hw, hnot [p], hvac [p]⟩
    simp [ReorderBuffer.claimSlot, slotAt_ok.2 hslot, bind, Except.bind, hfree, htagval, htag, hgrow, hev]

/-- the flush hands over a contiguous run at `nextExpected` -/
theorem flushLoop (fuel : ℕ) : ∀ (b : ReorderBuffer α) (h : List (ℕ × α)), Loose b h → b.slots ≠ [] →
    h.length < fuel → b.nextExpected + h.length < maxVal →
    ∃ b' out h', b.flushLoop fuel = .ok (b', out.map Prod.snd) ∧ Loose b' h' ∧ h.Perm (out ++ h') ∧
      out.map Prod.fst = List.range' b.nextExpected out.length ∧ b'.nextExpected = b.nextExpected + out.length ∧
      b'.dropped = b.dropped ∧ b'.slots ≠ [] := by
  induction fuel with
  | zero => intro b h _ _ hf; omega
  | succ fuel ih =>
    intro b h hb hne hf hmax
    obtain ⟨slot, hslot⟩ := hb.slot_exists hne b.nextExpected
    have htagval : wrappingAdd b.nextExpected 1 = b.nextExpected + 1 := wrappingAdd_of_lt (maxVal_lt (by omega))
    by_cases ht : slot.tag = b.nextExpected + 1
    · obtain ⟨p, hp, rfl⟩ := hb.occupied hslot (by rw [ht]; simp [UNOCCUPIED])
      have hpn : p.1 = b.nextExpected := by simpa [entry] using ht
      obtain ⟨l, r, rfl⟩ := List.append_of_mem hp
      have hperm : (l ++ p :: r).Perm (p :: (l ++ r)) := List.perm_middle
      have hb1 := hb.clear hslot hperm (wrappingAdd b.nextExpected 1) b.dropped
      have hlen := hperm.length_eq
      simp only [List.length_cons] at hlen
      obtain ⟨b', out, h', hrun, hb', hpm, hfst, hnext, hdrop, hne'⟩ :=
        ih _ (l ++ r) hb1 (by simpa using hne) (by omega) (by show wrappingAdd _ _ + _ < _; omega)
      refine ⟨b', p :: out, h', ?_, hb', hperm.trans (hpm.cons p), ?_, ?_, hdrop, hne'⟩
      · simp only [ReorderBuffer.flushLoop, slotAt_ok.2 hslot, bind, Except.bind, ht, htagval]
        simp only [htagval] at hrun
        simp [entry, hrun]
      · simp only [List.map_cons, List.length_cons, List.range'_succ, hpn]
        rw [hfst]
        simp only [htagval]
      · simp only [htagval] at hnext
        simp only [List.length_cons]
        omega
    · refine ⟨b, [], h, ?_, hb, by simp, by simp, by simp, rfl, hne⟩
      simp [ReorderBuffer.flushLoop, slotAt_ok.2 hslot, bind, Except.bind, htagval, ht]

theorem ensureSlots (hb : Loose b h) (hno : b.ensureSlots ≠ .error .capacityOverflow) :
    ∃ b', b.ensureSlots = .ok b' ∧ Loose b' h ∧ b'.slots ≠ [] ∧ b'.nextExpected = b.nextExpected ∧
      b'.dropped = b.dropped ∧ ∀ s, b'.ownSlot s = b.ownSlot s := by
  by_cases hnil : b.slots = []
  · have hcore : Core b h := by
      refine ⟨hb.pow, hb.maxPow, hb.le, hb.size, fun i s k hs => ?_, hb.live, hb.small, hb.len⟩
      rw [hnil] at hs
      cases hs
    obtain ⟨b', he, hb', hne, -, hsame, -⟩ := ensureSlots_core hcore hno
    refine ⟨b', he, hb'.loose, hne, hsame.next, hsame.dropped, fun s => ?_⟩
    have hslots : b'.slots = List.replicate (b.mask + 1) emptySlot := ensureSlots_slots hnil he
    simp only [ReorderBuffer.ownSlot, hslots, hnil, List.getElem?_replicate, List.getElem?_nil, Option.getD_none]
    split_ifs
    · rfl
    · rfl
  · refine ⟨b, ?_, hb, hnil, rfl, rfl, fun _ => rfl⟩
    unfold ReorderBuffer.ensureSlots
    rw [if_neg (by simpa using hnil)]

/-- **One call** with a seq that is held nowhere but in its own slot: the sink gets a contiguous run from the cursor, every
pair is emitted, still held or counted as dropped, and distinct held seqs stay distinct -/
theorem insertInto (hb : Loose b h) {seq : ℕ} (item : α) (hs : seq < maxVal)
    (hown : ∀ p ∈ h, p.1 = seq → b.ownSlot seq = entry p) (hroom : b.nextExpected + h.length + 1 < maxVal)
    (hno : b.insertInto seq item ≠ .error .capacityOverflow) :
    ∃ b' out h' ev, b.insertInto seq item = .ok (b', out.map Prod.snd) ∧ Loose b' h' ∧
      ((seq, item) :: h).Perm (out ++ h' ++ ev) ∧ out.map Prod.fst = List.range' b.nextExpected out.length ∧
      b'.nextExpected = b.nextExpected + out.length ∧ b'.dropped = b.dropped + ev.length ∧
      ((h.map Prod.fst).Nodup → ((out ++ h').map Prod.fst).Nodup) ∧
      ((b.ownSlot seq).tag = UNOCCUPIED ∨ (b.ownSlot seq).tag = seq + 1 → ∀ e ∈ ev, e.1 = seq) ∧
      (b'.slots = [] → b.slots = [] ∧ ev = []) := by
  by_cases hfast : seq = b.nextExpected ∧ b.len = 0
  · obtain ⟨rfl, hlen⟩ := hfast
    have hnil : h = [] := List.length_eq_zero_iff.1 (by rw [← hb.len, hlen])
    subst hnil
    have hnext : wrappingAdd b.nextExpected 1 = b.nextExpected + 1 := wrappingAdd_of_lt (maxVal_lt hs)
    refine ⟨{ b with nextExpected := b.nextExpected + 1 }, [(b.nextExpected, item)], [], [], ?_,
      ⟨hb.pow, hb.maxPow, hb.le, hb.size, hb.placed, hb.live, hb.small, hb.len⟩, by simp, by simp, rfl, rfl, by simp, by simp,
      fun hnil => ⟨hnil, rfl⟩⟩
    simp [ReorderBuffer.insertInto, hlen, hnext]
  · obtain ⟨b1, he, hb1, hne1, hn1, hd1, hown1⟩ := hb.ensureSlots fun hpan => hno (insertInto_of_ensureSlots hfast hpan)
    obtain ⟨b2, idx, h2, ev, hc, hperm, hne2, hn2, hd2, hw, hgone, hev⟩ := hb1.claimSlot hne1 hs
      (fun p hp hps => (hown1 seq).trans (hown p hp hps)) fun hpan => hno (insertInto_of_claimSlot hfast he hpan)
    have hb3 := hw item
    set b3 := b2.write idx seq item
    have hn3 : b3.nextExpected = b.nextExpected := hn2.trans hn1
    have hne3 : b3.slots ≠ [] := by
      intro hnil
      have := congrArg List.length hnil
      simp only [b3, ReorderBuffer.write, List.length_set, List.length_nil, List.length_eq_zero_iff] at this
      exact hne2 this
    have hsz : ((seq, item) :: h2).length < b3.slots.length + 1 := by
      have h1 := hb3.live.length_eq
      have h2 : (SlotTable.live seqOf b3.slots).length ≤ b3.slots.length := List.length_filter_le _ _
      rw [List.length_map] at h1
      omega
    have hlen2 := hperm.length_eq
    rw [List.length_append] at hlen2
    obtain ⟨b', out, h', hrun, hb', hpm, hfst, hnext, hdrop, hne'⟩ :=
      flushLoop _ b3 _ hb3 hne3 hsz (by rw [hn3]; simp only [List.length_cons]; omega)
    rw [hn3] at hfst hnext
    refine ⟨b', out, h', ev, ?_, hb', ?_, hfst, hnext, ?_, ?_, ?_, fun hnil => absurd hnil hne'⟩
    · have hlen3 : b3.len ≠ 0 := Nat.succ_ne_zero _
      rw [ReorderBuffer.insertInto, if_neg hfast]
      simp only [he, hc, bind, Except.bind, ReorderBuffer.flushReadyInto]
      exact (if_neg hlen3).trans hrun
    · calc ((seq, item) :: h).Perm ((seq, item) :: (ev ++ h2)) := hperm.cons _
        _ |>.Perm (((seq, item) :: h2) ++ ev) := (List.perm_append_comm).cons _
        _ |>.Perm (out ++ h' ++ ev) := hpm.append_right _
    · rw [hdrop]
      show b2.dropped = _
      rw [hd2, hd1]
    · -- what was held under this seq has been evicted
      intro hnd
      have hnd2 := ((hperm.map Prod.fst).nodup_iff).1 hnd
      rw [List.map_append, List.nodup_append] at hnd2
      have hnew : seq ∉ h2.map Prod.fst := by
        intro hin
        obtain ⟨p, hp, hps⟩ := List.mem_map.1 hin
        have hpev := hgone p (hperm.mem_iff.2 (List.mem_append_right _ hp)) hps
        exact hnd2.2.2 _ (List.mem_map_of_mem hpev) _ (List.mem_map_of_mem hp) rfl
      exact ((hpm.map Prod.fst).nodup_iff).1 (List.nodup_cons.2 ⟨hnew, hnd2.2.1⟩)
    · intro hcase e hee
      rw [← hown1 seq] at hcase
      exact hev hcase e hee

end Loose

/-! ## Whole runs -/

/-- after the calls `ops`: `em` was emitted in order from 0, `h` is held, `ev` was dropped, and nothing was before the array
was there -/
structure Split (b : ReorderBuffer α) (out : List α) (ops em h ev : List (ℕ × α)) : Prop where
  loose : Loose b h
  out : out = em.map Prod.snd
  order : em.map Prod.fst = List.range' 0 em.length
  next : b.nextExpected = em.length
  split : ops.Perm (em ++ h ++ ev)
  dropped : b.dropped = ev.length
  bare : b.slots = [] → ev = []

theorem Held.toSplit {out : List α} {ops em : List (ℕ × α)} (hh : Held b out ops em h []) : Split b out ops em h [] :=
  ⟨hh.core.loose, hh.out, hh.order, hh.next, hh.split, hh.dropped, fun _ => rfl⟩

theorem Split.step {out : List α} {ops em ev : List (ℕ × α)} (hh : Split b out ops em h ev) (seq : ℕ) (item : α)
    (hs : seq < maxVal) (hnew : seq ∉ ops.map Prod.fst) (hroom : ops.length + 1 < maxVal)
    (hno : Reorder.step (b, out) (seq, item) ≠ .error .capacityOverflow) :
    ∃ b' out' em' h' ev', Reorder.step (b, out) (seq, item) = .ok (b', out ++ out') ∧
      Split b' (out ++ out') (ops ++ [(seq, item)]) (em ++ em') h' (ev ++ ev') := by
  have hlen := hh.split.length_eq
  simp only [List.length_append] at hlen
  have hnext := hh.next
  have hnewh : ∀ p ∈ h, p.1 ≠ seq := by
    rintro p hp rfl
    refine hnew (List.mem_map_of_mem (hh.split.mem_iff.2 ?_))
    exact List.mem_append_left _ (List.mem_append_right _ hp)
  obtain ⟨b', em', h', ev', hins, hb', hperm, hfst, hnx, hdrop, -, -, hbare⟩ :=
    hh.loose.insertInto item hs (fun p hp hps => absurd hps (hnewh p hp)) (by omega) fun hpan =>
      hno (step_of_insertInto hpan)
  refine ⟨b', em'.map Prod.snd, em', h', ev', ?_, hb', ?_, ?_, ?_, ?_, ?_, fun hnil => ?_⟩
  · simp [Reorder.step, hins, bind, Except.bind]
  · rw [hh.out, List.map_append]
  · rw [List.map_append, hh.order, hfst, List.length_append, hnext]
    simpa using List.range'_append_1 (s := 0) (m := em.length) (n := em'.length)
  · rw [hnx, hnext, List.length_append]
  · exact split_snoc hh.split hperm
  · rw [hdrop, hh.dropped, List.length_append]
  · rw [hh.bare (hbare hnil).1, (hbare hnil).2, List.append_nil]

theorem Split.run {b0 : ReorderBuffer α} (h0 : Split b0 [] [] [] [] []) (ops : List (ℕ × α))
    (hnd : (ops.map Prod.fst).Nodup) (hsmall : ∀ o ∈ ops, o.1 < maxVal) (hlen : ops.length < maxVal)
    (hno : Reorder.run b0 ops ≠ .error .capacityOverflow) :
    ∃ b out em h ev, Reorder.run b0 ops = .ok (b, out) ∧ Split b out ops em h ev := by
  induction ops using List.reverseRecOn with
  | nil => exact ⟨b0, [], [], [], [], rfl, h0⟩
  | append_singleton ops o ih =>
    rw [List.map_append, List.nodup_append] at hnd
    rw [List.length_append] at hlen
    obtain ⟨b, out, em, h, ev, hrun, hh⟩ := ih hnd.1 (fun o ho => hsmall o (List.mem_append_left _ ho))
      (by simp at hlen; omega) (run_init hno).1
    obtain ⟨b', out', em', h', ev', hstep, hh'⟩ := hh.step o.1 o.2 (hsmall o (List.mem_append_right _ List.mem_cons_self))
      (fun hin => hnd.2.2 o.1 hin o.1 (by simp) rfl) (by simpa using hlen) ((run_init hno).2 _ hrun)
    exact ⟨b', out ++ out', em ++ em', h', ev ++ ev', by rw [run_snoc, hrun]; exact hstep, hh'⟩

/-- such a run panics only under a ceiling that a `Vec` cannot hold -/
theorem Split.over {b0 : ReorderBuffer α} (h0 : Split b0 [] [] [] [] []) {ops : List (ℕ × α)}
    (hnd : (ops.map Prod.fst).Nodup) (hsmall : ∀ o ∈ ops, o.1 < maxVal) (hlen : ops.length < maxVal)
    (hpan : Reorder.run b0 ops = .error .capacityOverflow) : isizeMax < b0.maxCapacity * b0.slotBytes := by
  refine run_over hpan ?_
  rintro pre o post st rfl hst
  rw [List.map_append, List.nodup_append] at hnd
  rw [List.length_append] at hlen
  obtain ⟨b, out, em, h, ev, hrun, hh⟩ := Split.run h0 pre hnd.1 (fun o ho => hsmall o (List.mem_append_left _ ho)) (by omega)
    (by rw [hst]; simp)
  cases hst.symm.trans hrun
  exact ⟨hh.loose.le, h, hh.loose.core⟩

/-- **Re-sequencing.** On a run of fewer than `u64::MAX` distinct seqs below `u64::MAX` that does not panic, the output followed
by `flushRemaining` is strictly increasing in seq, and what is missing was dropped and counted -/
theorem run_increasing (size : SlotSize) {initial : ℕ} (hi : initial ≤ 2 ^ 63) (mx : Option ℕ) {ops : List (ℕ × α)}
    (hnd : (ops.map Prod.fst).Nodup) (hsmall : ∀ o ∈ ops, o.1 < maxVal) (hlen : ops.length < maxVal)
    (hno : Reorder.run (withMaxInner size initial mx) ops ≠ .error .capacityOverflow) :
    ∃ (b b' : ReorderBuffer α) (out rest : List α) (l ev : List (ℕ × α)),
      Reorder.run (withMaxInner size initial mx) ops = .ok (b, out) ∧
      b.flushRemaining = .ok (b', rest) ∧ out ++ rest = l.map Prod.snd ∧ (l.map Prod.fst).Pairwise (· < ·) ∧
      ops.Perm (l ++ ev) ∧ ev.length = b'.dropped := by
  obtain ⟨b, out, em, h, ev, hrun, hh⟩ := Split.run (withMaxInner_held size initial hi mx).toSplit ops hnd hsmall hlen hno
  have hnd' : ((em ++ h ++ ev).map Prod.fst).Nodup := ((hh.split.map Prod.fst).nodup_iff).1 hnd
  rw [List.map_append, List.nodup_append, List.map_append, List.nodup_append] at hnd'
  obtain ⟨⟨-, hndh, hdisj⟩, -, -⟩ := hnd'
  obtain ⟨b', l, hfl, hperm, hpw, hdrop⟩ := flushRemaining_of_live hh.loose.live hndh
  refine ⟨b, b', out, l.map Prod.snd, em ++ l, ev, hrun, hfl, by rw [hh.out, List.map_append], ?_, ?_,
    (hdrop.trans hh.dropped).symm⟩
  · -- emitted seqs are `0, …, em.length - 1`, so every other seq is larger
    rw [List.map_append, List.pairwise_append]
    refine ⟨by rw [hh.order]; exact List.pairwise_lt_range', hpw, fun s hs t ht => ?_⟩
    have hne : t ∉ em.map Prod.fst := fun hin => hdisj t hin t ((hperm.map Prod.fst).mem_iff.1 ht) rfl
    rw [hh.order, List.mem_range'_1] at hs hne
    omega
  · exact hh.split.trans ((hperm.symm.append_left em).append_right ev)

end YouPipe.Reorder
