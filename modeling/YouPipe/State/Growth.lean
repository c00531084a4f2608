/-
Growth of the re-sequencing ring (`grow_for` and `double` in `state/reorder.rs`), over every run of calls: seqs may repeat, lie
behind the cursor, or be `u64::MAX`, and `flush_remaining` may come at any time.

`Ring` is what growth needs of a state and what every call keeps: below the ceiling each occupied slot sits at its seq under the
mask, so the occupied seqs are pairwise distinct modulo the capacity. At the ceiling the array is never rehashed again; there a
misplaced arrival (`Reorder.Misplaces`) may break the placement, and nothing here asks for it.

A doubling is made only for a seq whose slot is taken by a seq of the same residue, at least one capacity away. So the capacity
stays below twice the largest difference of two seqs held at once, the arriving one included (`span`).

Results: `Ring.insertInto` for one arrival, `growth` over all reachable states.
-/
import Mathlib.Tactic
import YouPipe.State.Resequence

namespace YouPipe.Reorder

open YouPipe.Word YouPipe.SlotTable

variable {α : Type}

/-! ## Runs -/

/-- a call on the buffer -/
inductive Call (α : Type) where
  | insertInto (seq : ℕ) (item : α)
  | flushRemaining
deriving DecidableEq, Repr

def ReorderBuffer.call (b : ReorderBuffer α) : Call α → Except Fault (ReorderBuffer α × List α)
  | .insertInto seq item => b.insertInto seq item
  | .flushRemaining => b.flushRemaining

/-- the state after a run of calls -/
def calls : ReorderBuffer α → List (Call α) → Except Fault (ReorderBuffer α)
  | b, [] => .ok b
  | b, c :: cs => do
    let (b', _) ← b.call c
    calls b' cs

/-- the `(seq, item)` pairs of the occupied slots -/
def ReorderBuffer.pairs (b : ReorderBuffer α) : List (ℕ × Option α) :=
  b.slots.filterMap fun s => (seqOf s).map fun q => (q, s.item)

/-- the seqs of the occupied slots -/
def ReorderBuffer.heldSeqs (b : ReorderBuffer α) : List ℕ := b.slots.filterMap seqOf

/-- the largest difference of two members -/
def spread (l : List ℕ) : ℕ := (l.toFinset ×ˢ l.toFinset).sup fun p => p.1 - p.2

/-- the seq that a call brings -/
def Call.seqs : Call α → List ℕ
  | .insertInto seq _ => [seq]
  | .flushRemaining => []

/-- the largest difference of two seqs that a run ever holds at once, the arriving one included -/
def span : ReorderBuffer α → List (Call α) → ℕ
  | b, [] => spread b.heldSeqs
  | b, c :: cs =>
    max (spread (c.seqs ++ b.heldSeqs))
      (match b.call c with
      | .ok (b', _) => span b' cs
      | .error _ => 0)

theorem sub_le_spread {l : List ℕ} {x y : ℕ} (hx : x ∈ l) (hy : y ∈ l) : x - y ≤ spread l := by
  have hmem : (x, y) ∈ l.toFinset ×ˢ l.toFinset := Finset.mem_product.2 ⟨List.mem_toFinset.2 hx, List.mem_toFinset.2 hy⟩
  exact Finset.le_sup (f := fun p : ℕ × ℕ => p.1 - p.2) hmem

/-! ## The invariant -/

structure Ring (b : ReorderBuffer α) : Prop where
  pow : ∃ k, k ≤ 63 ∧ b.mask + 1 = 2 ^ k
  maxPow : ∃ j, j ≤ 63 ∧ b.maxCapacity = 2 ^ j
  le : b.mask + 1 ≤ b.maxCapacity
  size : b.slots = [] ∨ b.slots.length = b.mask + 1
  placed : b.mask + 1 < b.maxCapacity → Placed seqOf b.slots
  tags : ∀ s ∈ b.slots, s.tag < word

section Ring

variable {b : ReorderBuffer α}

theorem seqOf_eq_some {s : Slot α} (hs : s.tag < word) {q : ℕ} : seqOf s = some q ↔ s.tag = q + 1 := by
  unfold seqOf UNOCCUPIED
  split_ifs with h
  · simp [h]
  · obtain ⟨t, ht⟩ := Nat.exists_eq_succ_of_ne_zero h
    rw [ht, Nat.succ_eq_add_one, wrappingSub_succ (by omega)]
    simp

/-- a slot written under `seq` is stored under `seq`, or looks free when `seq` is `u64::MAX` -/
theorem seqOf_written {seq : ℕ} (hs : seq < word) {item : Option α} {q : ℕ}
    (h : seqOf (⟨wrappingAdd seq 1, item⟩ : Slot α) = some q) : q = seq := by
  have hlt : wrappingAdd seq 1 < word := Nat.mod_lt _ (by decide)
  have htag := (seqOf_eq_some (s := ⟨wrappingAdd seq 1, item⟩) hlt).1 h
  simp only [wrappingAdd] at htag
  have hw : (seq + 1) % word = seq + 1 ∨ (seq + 1) % word = 0 := by
    rcases Nat.lt_or_ge (seq + 1) word with h1 | h1
    · exact .inl (Nat.mod_eq_of_lt h1)
    · rw [show seq + 1 = word by omega]; exact .inr (Nat.mod_self _)
  omega

theorem mem_heldSeqs {q : ℕ} : q ∈ b.heldSeqs ↔ ∃ s ∈ b.slots, seqOf s = some q := by
  simp [ReorderBuffer.heldSeqs, List.mem_filterMap]

theorem ownSlot_eq {seq : ℕ} {slot : Slot α} (h : b.slots[seq &&& b.mask]? = some slot) : b.ownSlot seq = slot := by
  simp [ReorderBuffer.ownSlot, h]

namespace Ring

theorem length_eq (hb : Ring b) (hne : b.slots ≠ []) : b.slots.length = b.mask + 1 := hb.size.resolve_left hne

theorem and_mask (hb : Ring b) (s : ℕ) : s &&& b.mask = s % (b.mask + 1) := by
  obtain ⟨k, -, hk⟩ := hb.pow
  exact Word.and_mask hk s

theorem slotAt (hb : Ring b) (hne : b.slots ≠ []) (seq : ℕ) : b.slotAt (seq &&& b.mask) = .ok (b.ownSlot seq) := by
  obtain ⟨k, -, hk⟩ := hb.pow
  obtain ⟨slot, hslot⟩ := probe_exists hk (hb.length_eq hne) seq
  rw [ownSlot_eq hslot]
  exact slotAt_ok.2 hslot

theorem ownSlot_getElem? (hb : Ring b) (hne : b.slots ≠ []) (seq : ℕ) :
    b.slots[seq &&& b.mask]? = some (b.ownSlot seq) := slotAt_ok.1 (hb.slotAt hne seq)

/-- below the ceiling the occupied seqs are pairwise distinct modulo the capacity -/
theorem distinct (hb : Ring b) (hlt : b.mask + 1 < b.maxCapacity) :
    b.heldSeqs.Pairwise fun s t => s % (b.mask + 1) ≠ t % (b.mask + 1) := by
  have hpw := (hb.placed hlt).pairwise
  rcases hb.size with hnil | hlen
  · simp [ReorderBuffer.heldSeqs, hnil]
  · have heq : b.heldSeqs = (SlotTable.live seqOf b.slots).filterMap seqOf := by
      rw [ReorderBuffer.heldSeqs, SlotTable.live, List.filterMap_filter]
      refine List.filterMap_congr fun s _ => ?_
      cases h : seqOf s <;> simp
    rw [heq, List.pairwise_filterMap]
    rw [hlen] at hpw
    exact hpw.imp fun {s t} hst q hq r hr => hst q r hq hr

/-- one doubling below the ceiling -/
theorem twice (hb : Ring b) (hne : b.slots ≠ []) (hlt : b.mask + 1 < b.maxCapacity) :
    Ring b.twice ∧ b.twice.slots ≠ [] ∧ Placed seqOf b.twice.slots ∧
      (SlotTable.live seqOf b.twice.slots).Perm (SlotTable.live seqOf b.slots) := by
  obtain ⟨k, hk63, hk⟩ := hb.pow
  obtain ⟨j, hj63, hj⟩ := hb.maxPow
  obtain ⟨hkj, hroom⟩ := double_le hk hj hlt
  obtain ⟨hlen, hplaced, hlive⟩ := double_placed hk (hb.length_eq hne) (hb.placed hlt)
  have hmask := double_mask b
  refine ⟨⟨⟨k + 1, by omega, by rw [hmask, hk, pow_succ]⟩, hb.maxPow, by rw [hmask]; exact hroom,
    .inr (hlen.trans hmask.symm), fun _ => hplaced, fun s hs => ?_⟩, ?_, hplaced, hlive⟩
  · by_cases ht : s.tag = UNOCCUPIED
    · rw [ht]; decide
    · obtain ⟨q, hq⟩ := Option.ne_none_iff_exists'.1 fun hn => ht (seqOf_none.1 hn)
      have hmem := hlive.mem_iff.1 ((mem_live seqOf).2 ⟨hs, q, hq⟩)
      exact hb.tags s ((mem_live seqOf).1 hmem).1
  · intro hnil
    rw [hnil] at hlen
    simp at hlen

end Ring

/-! ## The growth loop -/

/-- same occupied slots, same pairs and seqs -/
theorem pairs_perm {b' : ReorderBuffer α} (h : (SlotTable.live seqOf b'.slots).Perm (SlotTable.live seqOf b.slots)) :
    b'.pairs.Perm b.pairs ∧ b'.heldSeqs.Perm b.heldSeqs := by
  have hpairs : ∀ c : ReorderBuffer α, c.pairs =
      (SlotTable.live seqOf c.slots).filterMap fun s => (seqOf s).map fun q => (q, s.item) := by
    intro c
    rw [ReorderBuffer.pairs, SlotTable.live, List.filterMap_filter]
    refine List.filterMap_congr fun s _ => ?_
    cases h : seqOf s <;> simp
  have hseqs : ∀ c : ReorderBuffer α, c.heldSeqs = c.pairs.map Prod.fst := by
    intro c
    rw [ReorderBuffer.heldSeqs, ReorderBuffer.pairs, List.map_filterMap]
    refine List.filterMap_congr fun s _ => ?_
    cases h : seqOf s <;> simp
  have hp : b'.pairs.Perm b.pairs := by
    rw [hpairs, hpairs]
    exact h.filterMap _
  exact ⟨hp, by rw [hseqs, hseqs]; exact hp.map _⟩

/-- the state of the growth loop after `i` doublings -/
def ReorderBuffer.doubled (b : ReorderBuffer α) (i : ℕ) : ReorderBuffer α := ReorderBuffer.twice^[i] b

theorem doubled_succ (b : ReorderBuffer α) (i : ℕ) : b.doubled (i + 1) = (b.doubled i).twice :=
  Function.iterate_succ_apply' _ _ _

theorem doubled_succ' (b : ReorderBuffer α) (i : ℕ) : b.doubled (i + 1) = b.twice.doubled i :=
  Function.iterate_succ_apply _ _ _

/-- a state from which the loop goes on to double for `seq` -/
structure Doubles (seq : ℕ) (c : ReorderBuffer α) : Prop where
  ring : Ring c
  ne : c.slots ≠ []
  below : c.mask + 1 < c.maxCapacity
  taken : (c.ownSlot seq).tag ≠ UNOCCUPIED

/-- what one doubling does: a placed array of twice the size with the same pairs, within the ceiling -/
theorem Doubles.twice {seq : ℕ} {c : ReorderBuffer α} (h : Doubles seq c) :
    (c.mask + 1) * 2 ≤ c.maxCapacity ∧ c.twice.mask + 1 = (c.mask + 1) * 2 ∧ c.twice.pairs.Perm c.pairs ∧
      ∀ i s q, c.twice.slots[i]? = some s → seqOf s = some q → i = q &&& c.twice.mask := by
  obtain ⟨k, -, hk⟩ := h.ring.pow
  obtain ⟨j, -, hj⟩ := h.ring.maxPow
  obtain ⟨hring, hne, hplaced, hlive⟩ := h.ring.twice h.ne h.below
  refine ⟨(double_le hk hj h.below).2, double_mask c, (pairs_perm hlive).1, fun i s q hs hq => ?_⟩
  rw [hring.and_mask, ← hring.length_eq hne]
  exact (hplaced i s q hs hq).symm

/-- how the growth loop ends in the state `c`: it returns `free`, or the next array is more than a `Vec` can hold -/
inductive Stops (seq : ℕ) (c : ReorderBuffer α) : Except Fault (Bool × ReorderBuffer α) → Prop where
  | returns (free : Bool) (flag : free = true ↔ (c.ownSlot seq).tag = UNOCCUPIED)
      (ceiling : free = false → c.mask + 1 = c.maxCapacity) : Stops seq c (.ok (free, c))
  | panics (doubles : Doubles seq c) (large : isizeMax < (c.mask + 1) * 2 * c.slotBytes) : Stops seq c (.error .capacityOverflow)

/-- **The growth loop ends**, with the flag right about the slot of `seq` and every doubling made from a state of `Doubles` -/
theorem Ring.growFor (seq fuel : ℕ) : ∀ b : ReorderBuffer α, Ring b → b.slots ≠ [] →
    b.maxCapacity < (b.mask + 1) * 2 ^ fuel → (b.ownSlot seq).tag ≠ UNOCCUPIED →
    ∃ n r, (∀ fuel', fuel ≤ fuel' → b.growFor fuel' seq = r) ∧ Ring (b.doubled n) ∧ (b.doubled n).slots ≠ [] ∧
      Stops seq (b.doubled n) r ∧ ∀ i < n, Doubles seq (b.doubled i) := by
  induction fuel with
  | zero => intro b hb _ hf; have := hb.le; omega
  | succ fuel ih =>
    intro b hb hne hf htaken
    by_cases hmax : b.maxCapacity ≤ b.mask + 1
    · refine ⟨0, .ok (false, b), fun fuel' hfuel => ?_, hb, hne, .returns false ?_ fun _ => ?_, by simp⟩
      · obtain ⟨f, rfl⟩ : ∃ f, fuel' = f + 1 := ⟨fuel' - 1, by omega⟩
        rw [growFor_ceiling hmax (hb.ownSlot_getElem? hne seq), decide_eq_false htaken]
      · simpa [ReorderBuffer.doubled] using htaken
      · have := hb.le
        simp only [ReorderBuffer.doubled, Function.iterate_zero, id_eq]
        omega
    · have hd : Doubles seq b := ⟨hb, hne, by omega, htaken⟩
      by_cases hfit : (b.mask + 1) * 2 * b.slotBytes ≤ isizeMax
      swap
      · refine ⟨0, .error .capacityOverflow, fun fuel' hfuel => ?_, hb, hne, .panics hd (Nat.lt_of_not_le hfit), by simp⟩
        obtain ⟨f, rfl⟩ : ∃ f, fuel' = f + 1 := ⟨fuel' - 1, by omega⟩
        exact growFor_over hmax hfit f
      obtain ⟨hdring, hdne, -, -⟩ := hb.twice hne hd.below
      by_cases hfree : (b.twice.ownSlot seq).tag = UNOCCUPIED
      · refine ⟨1, .ok (true, b.twice), fun fuel' hfuel => ?_, hdring, hdne, .returns true ?_ (by simp), fun i hi => ?_⟩
        · obtain ⟨f, rfl⟩ : ∃ f, fuel' = f + 1 := ⟨fuel' - 1, by omega⟩
          rw [growFor_below hmax hfit (hdring.ownSlot_getElem? hdne seq), if_pos hfree]
        · simpa [ReorderBuffer.doubled] using hfree
        · obtain rfl : i = 0 := by omega
          exact hd
      · have hf' : b.twice.maxCapacity < (b.twice.mask + 1) * 2 ^ fuel := by
          rw [double_mask, mul_assoc, ← pow_succ']
          exact hf
        obtain ⟨n, r, hrun, hring, hne', hstop, hsteps⟩ := ih b.twice hdring hdne hf' hfree
        simp only [← doubled_succ'] at hring hne' hstop hsteps
        refine ⟨n + 1, r, fun fuel' hfuel => ?_, hring, hne', hstop, fun i hi => ?_⟩
        · obtain ⟨f, rfl⟩ : ∃ f, fuel' = f + 1 := ⟨fuel' - 1, by omega⟩
          rw [growFor_below hmax hfit (hdring.ownSlot_getElem? hdne seq), if_neg hfree, hrun f (by omega)]
        · cases i with
          | zero => exact hd
          | succ i => exact hsteps i (by omega)

/-- the loop bound of the model is enough for every capacity -/
theorem Ring.fuel (hb : Ring b) : b.maxCapacity < (b.mask + 1) * 2 ^ growBound := by
  obtain ⟨j, hj63, hj⟩ := hb.maxPow
  calc b.maxCapacity = 2 ^ j := hj
    _ < 2 ^ growBound := Nat.pow_lt_pow_right (by norm_num) (by unfold growBound; omega)
    _ ≤ (b.mask + 1) * 2 ^ growBound := Nat.le_mul_of_pos_left _ (Nat.succ_pos _)

/-- the doublings of one loop move no seq in or out -/
theorem heldSeqs_doubled {seq n : ℕ} (h : ∀ i < n, Doubles seq (b.doubled i)) : (b.doubled n).heldSeqs.Perm b.heldSeqs := by
  induction n with
  | zero => exact List.Perm.refl _
  | succ n ih =>
    have hd := h n (Nat.lt_succ_self n)
    obtain ⟨-, -, -, hlive⟩ := hd.ring.twice hd.ne hd.below
    rw [doubled_succ]
    exact (pairs_perm hlive).2.trans (ih fun i hi => h i (by omega))

/-- an occupied own slot holds a seq of the same residue -/
theorem Doubles.alias {seq : ℕ} {c : ReorderBuffer α} (h : Doubles seq c) :
    ∃ t ∈ c.heldSeqs, (c.ownSlot seq).tag = t + 1 ∧ t % (c.mask + 1) = seq % (c.mask + 1) := by
  have hslot := h.ring.ownSlot_getElem? h.ne seq
  obtain ⟨t, ht⟩ := Option.ne_none_iff_exists'.1 fun hn => h.taken (seqOf_none.1 hn)
  have hmem := List.mem_of_getElem? hslot
  have hplace := h.ring.placed h.below _ _ t hslot ht
  rw [h.ring.length_eq h.ne, h.ring.and_mask] at hplace
  exact ⟨t, mem_heldSeqs.2 ⟨_, hmem, ht⟩, (seqOf_eq_some (h.ring.tags _ hmem)).1 ht, hplace⟩

/-- seqs of one residue are at least a capacity apart -/
theorem le_sub_of_mod_eq {c s t : ℕ} (hne : t ≠ s) (hmod : t % c = s % c) : c ≤ t - s ∨ c ≤ s - t := by
  rcases Nat.lt_or_gt_of_ne hne with hlt | hgt
  · right
    exact Nat.le_of_dvd (by omega) ((Nat.modEq_iff_dvd' hlt.le).1 hmod)
  · left
    exact Nat.le_of_dvd (by omega) ((Nat.modEq_iff_dvd' hgt.le).1 hmod.symm)

/-- **One growth is bounded by what is held.** The last doubling was made for a held seq at least that capacity away. -/
theorem doubled_le_spread {seq n : ℕ} (hother : (b.ownSlot seq).tag ≠ seq + 1)
    (h : ∀ i < n, Doubles seq (b.doubled i)) :
    (b.doubled n).mask + 1 ≤ max (b.mask + 1) (2 * spread (seq :: b.heldSeqs)) := by
  cases n with
  | zero => exact le_max_left _ _
  | succ n =>
    have hlast := h n (Nat.lt_succ_self n)
    have hfirst := h 0 (Nat.succ_pos n)
    -- `seq` itself is not held: its own slot, where it would have to be, is another's
    have hnot : seq ∉ b.heldSeqs := by
      intro hmem
      obtain ⟨s, hs, hq⟩ := mem_heldSeqs.1 hmem
      obtain ⟨i, hi⟩ := List.getElem?_of_mem hs
      have hplace := hfirst.ring.placed hfirst.below i s seq hi hq
      rw [hfirst.ring.length_eq hfirst.ne, ← hfirst.ring.and_mask] at hplace
      have hown := ownSlot_eq (hplace ▸ hi)
      exact hother (by rw [hown]; exact (seqOf_eq_some (hfirst.ring.tags s hs)).1 hq)
    obtain ⟨t, ht, -, hmod⟩ := hlast.alias
    have htb : t ∈ b.heldSeqs := (heldSeqs_doubled fun i hi => h i (by omega)).mem_iff.1 ht
    have hne : t ≠ seq := by rintro rfl; exact hnot htb
    have hgap := le_sub_of_mod_eq hne hmod
    have h1 := sub_le_spread (l := seq :: b.heldSeqs) (List.mem_cons_of_mem _ htb) List.mem_cons_self
    have h2 := sub_le_spread (l := seq :: b.heldSeqs) List.mem_cons_self (List.mem_cons_of_mem _ htb)
    rw [doubled_succ, double_mask]
    omega

/-! ## Every call keeps the ring -/

/-- one slot changes; below the ceiling the new slot is in its place -/
theorem Ring.set (hb : Ring b) {idx : ℕ} {s : Slot α} (htag : s.tag < word)
    (hplace : b.mask + 1 < b.maxCapacity → ∀ q, seqOf s = some q → q &&& b.mask = idx) (n l d : ℕ) :
    Ring { b with slots := b.slots.set idx s, nextExpected := n, len := l, dropped := d } := by
  refine ⟨hb.pow, hb.maxPow, hb.le, ?_, fun hlt => ?_, fun t ht => ?_⟩
  · rcases hb.size with hnil | hlen
    · exact .inl (by simp [hnil])
    · exact .inr (by simp [hlen])
  · rcases hb.size with hnil | hlen
    · intro i t q hi
      simp [hnil] at hi
    · refine placed_set seqOf (hb.placed hlt) idx s fun q hq => ?_
      rw [hlen, ← hb.and_mask]
      exact hplace hlt q hq
  · rcases List.mem_or_eq_of_mem_set ht with ht | rfl
    · exact hb.tags t ht
    · exact htag

theorem Ring.ensureSlots {b' : ReorderBuffer α} (hb : Ring b) (h : b.ensureSlots = .ok b') :
    Ring b' ∧ b'.slots ≠ [] ∧ b'.mask = b.mask ∧ b'.maxCapacity = b.maxCapacity ∧ b'.heldSeqs = b.heldSeqs := by
  have hm := ensureSlots_mask h
  have hx := (ensureSlots_limits h).maxCap
  by_cases hnil : b.slots = []
  · have hslots := ensureSlots_slots hnil h
    have hempty : (List.replicate (b.mask + 1) (emptySlot : Slot α)).filterMap seqOf = [] := by
      rw [List.filterMap_eq_nil_iff]
      intro s hs
      rw [List.eq_of_mem_replicate hs, seqOf_emptySlot]
    refine ⟨⟨by rw [hm]; exact hb.pow, by rw [hx]; exact hb.maxPow, by rw [hm, hx]; exact hb.le, .inr (by simp [hslots, hm]),
      fun _ => by rw [hslots]; exact placed_replicate seqOf _ seqOf_emptySlot, fun s hs => ?_⟩,
      by simp [hslots, List.replicate_succ], hm, hx, by simp [ReorderBuffer.heldSeqs, hslots, hnil, hempty]⟩
    rw [hslots] at hs
    rw [List.eq_of_mem_replicate hs]
    exact Nat.pow_pos (by norm_num)
  · rw [ReorderBuffer.ensureSlots, if_neg (by simpa using hnil)] at h
    cases h
    exact ⟨hb, hnil, rfl, rfl, rfl⟩

/-- what `claimSlot` leaves: a grown ring, and the index of `seq` unless the ceiling is reached -/
structure Claims (b b' : ReorderBuffer α) (seq idx : ℕ) : Prop where
  ring : Ring b'
  ne : b'.slots ≠ []
  maxCap : b'.maxCapacity = b.maxCapacity
  own : b'.mask + 1 < b'.maxCapacity → idx = seq &&& b'.mask
  bound : b'.mask + 1 ≤ max (b.mask + 1) (2 * spread (seq :: b.heldSeqs))

/-- the overwrite of an occupied slot keeps the tag until the write -/
theorem Claims.evict {b' b'' : ReorderBuffer α} {seq idx : ℕ} {slot : Slot α} (h : Claims b b' seq idx)
    (hslot : b'.slots[idx]? = some slot) (hev : b'.evict idx slot = .ok b'') : Claims b b'' seq idx := by
  unfold ReorderBuffer.evict at hev
  cases hitem : slot.item with
  | none => simp [hitem] at hev
  | some x =>
    simp only [hitem, Except.ok.injEq] at hev
    subst hev
    have hmem := List.mem_of_getElem? hslot
    refine ⟨h.ring.set (s := ⟨slot.tag, none⟩) (h.ring.tags slot hmem) (fun hlt q hq => ?_) _ _ _, ?_, h.maxCap, h.own,
      h.bound⟩
    · have hseq : seqOf slot = some q := hq
      have hplace := h.ring.placed hlt idx slot q hslot hseq
      rwa [h.ring.length_eq h.ne, ← h.ring.and_mask] at hplace
    · intro hnil
      have hlen := congrArg List.length hnil
      simp only [List.length_set, List.length_nil] at hlen
      exact h.ne (List.length_eq_zero_iff.1 hlen)

theorem doubled_maxCapacity (b : ReorderBuffer α) (n : ℕ) : (b.doubled n).maxCapacity = b.maxCapacity := by
  induction n with
  | zero => rfl
  | succ n ih => rw [doubled_succ]; exact ih

theorem doubled_slotBytes (b : ReorderBuffer α) (n : ℕ) : (b.doubled n).slotBytes = b.slotBytes := by
  induction n with
  | zero => rfl
  | succ n ih => rw [doubled_succ]; exact ih

theorem Claims.overwrite {c b' : ReorderBuffer α} {seq i idx : ℕ} (hc : Claims b c seq i)
    (h : c.overwrite i = .ok (b', idx)) : Claims b b' seq idx := by
  unfold ReorderBuffer.overwrite at h
  cases hslot : c.slotAt i with
  | error e => simp [hslot, bind, Except.bind] at h
  | ok slot =>
    simp only [hslot, bind, Except.bind] at h
    split_ifs at h with htag
    · cases h
      exact hc
    · cases hev : c.evict i slot with
      | error e => simp [hev] at h
      | ok c' =>
        simp only [hev] at h
        cases h
        exact hc.evict (slotAt_ok.1 hslot) hev

theorem Ring.claimSlot {b' : ReorderBuffer α} {seq idx : ℕ} (hb : Ring b) (hne : b.slots ≠ [])
    (h : b.claimSlot seq = .ok (b', idx)) : Claims b b' seq idx := by
  have hslot := hb.slotAt hne seq
  have hstay : Claims b b seq (seq &&& b.mask) := ⟨hb, hne, rfl, fun _ => rfl, le_max_left _ _⟩
  by_cases hfree : (b.ownSlot seq).tag = UNOCCUPIED
  · rw [claimSlot_free hslot hfree] at h
    cases h
    exact hstay
  rw [claimSlot_taken hslot hfree] at h
  split_ifs at h with hdup
  · exact hstay.overwrite h
  · have hother : (b.ownSlot seq).tag ≠ seq + 1 := by
      intro heq
      have hmem := List.mem_of_getElem? (hb.ownSlot_getElem? hne seq)
      have hlt : seq + 1 < word := heq ▸ hb.tags _ hmem
      exact hdup (by rw [heq, wrappingAdd_of_lt hlt])
    obtain ⟨n, r, hrun, hring, hne', hstop, hsteps⟩ := Ring.growFor seq growBound b hb hne hb.fuel hfree
    rw [hrun growBound le_rfl] at h
    cases hstop with
    | panics doubles large => cases h
    | returns free flag ceiling =>
      have hgrown : Claims b (b.doubled n) seq (if free then seq &&& (b.doubled n).mask else seq &&& b.mask) := by
        refine ⟨hring, hne', doubled_maxCapacity b n, fun hlt => ?_, doubled_le_spread hother hsteps⟩
        cases free with
        | true => rfl
        | false => exact absurd (ceiling rfl) (by omega)
      exact hgrown.overwrite h

theorem Ring.flushLoop {b' : ReorderBuffer α} {out : List α} (fuel : ℕ) : ∀ b : ReorderBuffer α, Ring b →
    b.flushLoop fuel = .ok (b', out) → Ring b' ∧ b'.mask = b.mask ∧ b'.maxCapacity = b.maxCapacity := by
  induction fuel generalizing out with
  | zero => intro b _ h; simp [ReorderBuffer.flushLoop] at h
  | succ fuel ih =>
    intro b hb h
    unfold ReorderBuffer.flushLoop at h
    cases hslot : b.slotAt (b.nextExpected &&& b.mask) with
    | error e => simp [hslot, bind, Except.bind] at h
    | ok slot =>
      simp only [hslot, bind, Except.bind] at h
      split_ifs at h with htag
      · cases h
        exact ⟨hb, rfl, rfl⟩
      · cases hitem : slot.item with
        | none => simp [hitem] at h
        | some x =>
          simp only [hitem] at h
          split at h
          · simp at h
          · next r hr =>
            cases h
            have hclear : Ring { b with
                slots := b.slots.set (b.nextExpected &&& b.mask) emptySlot, len := b.len - 1,
                nextExpected := wrappingAdd b.nextExpected 1 } :=
              hb.set (s := emptySlot) (Nat.pow_pos (by norm_num)) (fun _ q hq => by simp [seqOf_emptySlot] at hq) _ _ _
            obtain ⟨hring, hmask, hmax⟩ := ih _ hclear hr
            exact ⟨hring, hmask, hmax⟩

/-- **One arrival.** The ring is kept, and the capacity grows to at most twice the spread of what is held and arrives. -/
theorem Ring.insertInto {b' : ReorderBuffer α} {out : List α} (hb : Ring b) {seq : ℕ} (hs : seq < word) {item : α}
    (h : b.insertInto seq item = .ok (b', out)) :
    Ring b' ∧ b'.mask + 1 ≤ max (b.mask + 1) (2 * spread (seq :: b.heldSeqs)) := by
  unfold ReorderBuffer.insertInto at h
  split_ifs at h with hfast
  · cases h
    exact ⟨⟨hb.pow, hb.maxPow, hb.le, hb.size, hb.placed, hb.tags⟩, le_max_left _ _⟩
  cases hens : b.ensureSlots with
  | error e => simp [hens, bind, Except.bind] at h
  | ok b1 =>
    obtain ⟨hb1, hne1, hm1, hx1, hh1⟩ := hb.ensureSlots hens
    simp only [hens, bind, Except.bind] at h
    cases hcl : b1.claimSlot seq with
    | error e => simp [hcl] at h
    | ok r =>
      obtain ⟨b2, idx⟩ := r
      have hc := hb1.claimSlot hne1 hcl
      simp only [hcl] at h
      have hbound := hc.bound
      rw [hm1, hh1] at hbound
      have hw : Ring { b2 with slots := b2.slots.set idx ⟨wrappingAdd seq 1, some item⟩, len := b2.len + 1 } := by
        refine hc.ring.set (s := ⟨wrappingAdd seq 1, some item⟩) (Nat.mod_lt _ (Nat.pow_pos (by norm_num)))
          (fun hlt q hq => ?_) _ _ _
        rw [seqOf_written hs hq]
        exact (hc.own hlt).symm
      rw [ReorderBuffer.flushReadyInto, if_neg (Nat.succ_ne_zero _)] at h
      obtain ⟨hr, hm, -⟩ := Ring.flushLoop _ _ hw h
      refine ⟨hr, ?_⟩
      rw [hm]
      exact hbound

theorem Ring.flushRemaining {b' : ReorderBuffer α} {out : List α} (hb : Ring b)
    (h : b.flushRemaining = .ok (b', out)) : Ring b' ∧ b'.mask = b.mask := by
  unfold ReorderBuffer.flushRemaining at h
  simp only [bind, Except.bind] at h
  split at h
  · cases h
  · cases h
    -- every slot that is left looks free
    have hfree : ∀ s ∈ List.replicate (b.slots.filter fun s => s.tag ≠ UNOCCUPIED).length (emptySlot : Slot α) ++
        b.slots.filter (fun s => s.tag = UNOCCUPIED), s.tag = UNOCCUPIED := by
      intro s hs
      rcases List.mem_append.1 hs with hs | hs
      · rw [List.eq_of_mem_replicate hs]; rfl
      · simpa using (List.mem_filter.1 hs).2
    refine ⟨⟨hb.pow, hb.maxPow, hb.le, ?_, fun _ i s q hi hq => ?_, fun s hs => ?_⟩, rfl⟩
    · rcases hb.size with hnil | hlen
      · exact .inl (by simp [hnil])
      · right
        rw [← hlen]
        have hsplit := List.length_eq_length_filter_add (l := b.slots) fun s => decide (s.tag ≠ UNOCCUPIED)
        simp only [List.length_append, List.length_replicate]
        simp only [decide_not, Bool.not_not] at hsplit ⊢
        omega
    · rw [seqOf_none.2 (hfree s (List.mem_of_getElem? hi))] at hq
      cases hq
    · rw [hfree s hs]
      exact Nat.pow_pos (by norm_num)

theorem Ring.call {b' : ReorderBuffer α} {out : List α} (hb : Ring b) {c : Call α} (hs : ∀ seq ∈ c.seqs, seq < word)
    (h : b.call c = .ok (b', out)) : Ring b' ∧ b'.mask + 1 ≤ max (b.mask + 1) (2 * spread (c.seqs ++ b.heldSeqs)) := by
  cases c with
  | insertInto seq item => exact hb.insertInto (hs seq (by simp [Call.seqs])) h
  | flushRemaining =>
    obtain ⟨hr, hm⟩ := hb.flushRemaining h
    exact ⟨hr, by rw [hm]; exact le_max_left _ _⟩

/-! ## Runs -/

/-- every run keeps the ring, with the capacity within twice its span -/
theorem Ring.calls {b0 : ReorderBuffer α} (h0 : Ring b0) {cs : List (Call α)} (hs : ∀ c ∈ cs, ∀ seq ∈ c.seqs, seq < word)
    (h : Reorder.calls b0 cs = .ok b) : Ring b ∧ b.mask + 1 ≤ max (b0.mask + 1) (2 * span b0 cs) := by
  induction cs generalizing b0 with
  | nil =>
    simp only [Reorder.calls, Except.ok.injEq] at h
    subst h
    exact ⟨h0, le_max_left _ _⟩
  | cons c cs ih =>
    cases hc : b0.call c with
    | error e => simp [Reorder.calls, hc, bind, Except.bind] at h
    | ok r =>
      simp only [Reorder.calls, hc, bind, Except.bind] at h
      obtain ⟨hr, hbound⟩ := h0.call (hs c List.mem_cons_self) hc
      obtain ⟨hb, hle⟩ := ih hr (fun d hd => hs d (List.mem_cons_of_mem _ hd)) h
      refine ⟨hb, ?_⟩
      simp only [span, hc]
      omega

/-- a buffer whose first array is more than a `Vec` can hold never gets it -/
theorem calls_oversized {b0 : ReorderBuffer α} (h0 : b0.slots = [] ∧ isizeMax < (b0.mask + 1) * b0.slotBytes)
    {cs : List (Call α)} (h : calls b0 cs = .ok b) : b.slots = [] ∧ b.mask = b0.mask := by
  induction cs generalizing b0 with
  | nil =>
    simp only [calls, Except.ok.injEq] at h
    subst h
    exact ⟨h0.1, rfl⟩
  | cons c cs ih =>
    cases hc : b0.call c with
    | error e => simp [calls, hc, bind, Except.bind] at h
    | ok r =>
      simp only [calls, hc, bind, Except.bind] at h
      cases c with
      | insertInto seq item =>
        simp only [ReorderBuffer.call, ReorderBuffer.insertInto] at hc
        split_ifs at hc with hfast
        · cases hc
          have hrest := ih (by exact h0) h
          exact hrest
        · simp [ReorderBuffer.ensureSlots, ReorderBuffer.collectSlots, h0.1, Nat.not_le_of_lt h0.2, bind, Except.bind] at hc
      | flushRemaining =>
        simp only [ReorderBuffer.call, ReorderBuffer.flushRemaining, h0.1, bind, Except.bind] at hc
        cases hc
        have hrest := ih (by exact ⟨rfl, h0.2⟩) h
        exact hrest

theorem ring_withMaxInner (size : SlotSize) {initial : ℕ} (hi : initial ≤ 2 ^ 63) (mx : Option ℕ) :
    Ring (withMaxInner size initial mx : ReorderBuffer α) := by
  have hc := (withMaxInner_held (α := α) size initial hi mx).core
  exact ⟨hc.pow, hc.maxPow, hc.le, hc.size, fun _ => hc.placed, by simp [withMaxInner]⟩

end Ring

/-! ## Results -/

/-- the first `n` doublings of `grow_for` from a state: each stays within the ceiling and keeps exactly the pairs, each at its
seq under the new mask -/
structure Doublings (b : ReorderBuffer α) (n : ℕ) : Prop where
  room : ∀ i < n, ((b.doubled i).mask + 1) * 2 ≤ b.maxCapacity ∧
    (b.doubled (i + 1)).mask + 1 = ((b.doubled i).mask + 1) * 2
  pairs : ∀ i < n, (b.doubled (i + 1)).pairs.Perm (b.doubled i).pairs
  placed : ∀ i < n, ∀ j s q, (b.doubled (i + 1)).slots[j]? = some s → seqOf s = some q → j = q &&& (b.doubled (i + 1)).mask

/-- `grow_for` returns from a state after `n` doublings, with the flag `free` -/
structure Grows (b : ReorderBuffer α) (seq n : ℕ) (free : Bool) : Prop extends Doublings b n where
  ends : ∀ fuel, growBound ≤ fuel → b.growFor fuel seq = .ok (free, b.doubled n)
  flag : free = true ↔ ((b.doubled n).ownSlot seq).tag = UNOCCUPIED

/-- `grow_for` panics after `n` doublings: one more, below the ceiling, would take more than `isize::MAX` bytes -/
structure Bursts (b : ReorderBuffer α) (seq n : ℕ) : Prop extends Doublings b n where
  ends : ∀ fuel, growBound ≤ fuel → b.growFor fuel seq = .error .capacityOverflow
  below : ((b.doubled n).mask + 1) * 2 ≤ b.maxCapacity
  large : isizeMax < ((b.doubled n).mask + 1) * 2 * b.slotBytes

theorem doublings_of_steps {b : ReorderBuffer α} {seq n : ℕ} (h : ∀ i < n, Doubles seq (b.doubled i)) : Doublings b n := by
  refine ⟨fun i hi => ?_, fun i hi => ?_, fun i hi => ?_⟩
  · obtain ⟨hroom, hmask, -⟩ := (h i hi).twice
    rw [doubled_maxCapacity] at hroom
    exact ⟨hroom, by rw [doubled_succ]; exact hmask⟩
  · rw [doubled_succ]
    exact (h i hi).twice.2.2.1
  · rw [doubled_succ]
    exact (h i hi).twice.2.2.2

theorem Ring.grows {b : ReorderBuffer α} (hb : Ring b) {seq : ℕ} (htaken : (b.ownSlot seq).tag ≠ UNOCCUPIED) :
    (∃ n free, Grows b seq n free) ∨ ∃ n, Bursts b seq n := by
  have hne : b.slots ≠ [] := by
    intro hnil
    simp [ReorderBuffer.ownSlot, hnil, emptySlot] at htaken
  obtain ⟨n, r, hrun, -, -, hstop, hsteps⟩ := Ring.growFor seq growBound b hb hne hb.fuel htaken
  have hdoublings := doublings_of_steps hsteps
  cases hstop with
  | returns free flag ceiling => exact .inl ⟨n, free, hdoublings, hrun, flag⟩
  | panics doubles large =>
    refine .inr ⟨n, hdoublings, hrun, ?_, ?_⟩
    · rw [← doubled_maxCapacity b n]
      exact doubles.twice.1
    · rwa [doubled_slotBytes] at large

/-- **Growth preserves the content and is bounded by the span.** In every state that calls can reach: as long as the array can
still grow, the occupied seqs are pairwise distinct modulo its capacity. `grow_for` for a seq whose slot is another's ends; each
of its doublings stays within the ceiling, keeps exactly the pairs and puts each at its seq under the new mask; the flag says
whether the slot of the seq is free in the end, unless the next array would be more than a `Vec` can hold. The capacity never
exceeds the rounded initial capacity or twice the largest difference of two seqs held at once, the arriving one included. -/
theorem growth (size : SlotSize) {initial : ℕ} (hi : initial < word) (mx : Option ℕ) {cs : List (Call α)}
    (hs : ∀ c ∈ cs, ∀ seq ∈ c.seqs, seq < word) {b : ReorderBuffer α} (h : calls (withMaxInner size initial mx) cs = .ok b) :
    (b.mask + 1 < b.maxCapacity → b.heldSeqs.Pairwise fun s t => s % (b.mask + 1) ≠ t % (b.mask + 1)) ∧
    (∀ seq < maxVal, (b.ownSlot seq).tag ≠ UNOCCUPIED → (b.ownSlot seq).tag ≠ seq + 1 →
      (∃ n free, Grows b seq n free) ∨ ∃ n, Bursts b seq n) ∧
    b.capacity ≤ max (nextPowerOfTwo (max initial 1)) (2 * span (withMaxInner size initial mx) cs) := by
  by_cases hbig : 2 ^ 63 < initial
  · -- only the fast path is served: no slots, and a capacity of 0
    obtain ⟨hnil, hmask⟩ := calls_oversized ⟨rfl, withMaxInner_over size hbig hi mx⟩ h
    rw [withMaxInner_oversized size hbig hi mx] at hmask
    refine ⟨fun _ => by simp [ReorderBuffer.heldSeqs, hnil], fun seq _ htaken _ => ?_, ?_⟩
    · simp [ReorderBuffer.ownSlot, hnil, emptySlot] at htaken
    · have hzero : b.capacity = 0 := by rw [ReorderBuffer.capacity, hmask]; decide
      rw [hzero]
      exact Nat.zero_le _
  · obtain ⟨hb, hle⟩ := (ring_withMaxInner size (by omega) mx).calls hs h
    refine ⟨hb.distinct, fun seq _ htaken _ => hb.grows htaken, ?_⟩
    obtain ⟨k, hk63, hk⟩ := hb.pow
    have hword : 2 ^ k < word := Nat.pow_lt_pow_right (by norm_num) (by omega)
    rw [ReorderBuffer.capacity, wrappingAdd_of_lt (by omega)]
    rwa [withMaxInner_mask size (by omega) mx] at hle

/-- seq 3 in two slots -/
def oneHeld : ReorderBuffer ℕ := ⟨[emptySlot, ⟨4, some 30⟩], 0, 1, 1, 16, 0, 16⟩

/-- seq 11 arrives while 3 is held: three doublings, to exactly twice their difference -/
theorem growth_three_doublings :
    calls (withMaxInner wordSlot 2 (some 16)) [.insertInto 3 30] = .ok oneHeld ∧ (∃ n free, Grows oneHeld 11 n free) ∧
      oneHeld.growFor growBound 11 = .ok (true, oneHeld.doubled 3) ∧
      ∃ b, calls (withMaxInner wordSlot 2 (some 16)) [.insertInto 3 30, .insertInto 11 110] = .ok b ∧ b.capacity = 16 ∧
        span (withMaxInner wordSlot 2 (some 16)) [.insertInto 3 30, .insertInto 11 110] = 8 := by
  have hheld : calls (withMaxInner wordSlot 2 (some 16)) [.insertInto 3 30] = .ok oneHeld := by decide
  have hgrow : oneHeld.growFor growBound 11 = .ok (true, oneHeld.doubled 3) := by decide
  refine ⟨hheld, ?_, hgrow, ?_⟩
  · have h := @growth ℕ wordSlot 2 (by decide) (some 16) [.insertInto 3 30] (by decide) oneHeld hheld
    refine (h.2.1 11 (by decide) (by decide) (by decide)).resolve_right ?_
    rintro ⟨n, hburst⟩
    have hend := hburst.ends growBound le_rfl
    rw [hgrow] at hend
    cases hend
  · have hcap : ((calls (withMaxInner wordSlot 2 (some 16)) [.insertInto 3 30, .insertInto 11 110]).toOption.map
        ReorderBuffer.capacity) = some 16 := by decide
    cases hrun : calls (withMaxInner wordSlot 2 (some 16)) [.insertInto 3 30, .insertInto 11 110] with
    | error e =>
      rw [hrun] at hcap
      cases hcap
    | ok b =>
      rw [hrun] at hcap
      exact ⟨b, rfl, Option.some.inj hcap, by decide⟩

end YouPipe.Reorder
