/-
The re-sequencing buffer (`state/reorder.rs`). Items arrive tagged with a `u64` sequence number, in any order; the buffer
hands the contiguous run that starts at `nextExpected` to the sink and keeps the rest in a power-of-two slot array
addressed by `seq & mask`. An arrival whose slot is taken by another seq doubles the array (rehashing the occupied slots)
up to `maxCapacity`; at that ceiling the older item is dropped and counted.

Words are modelled as in a release build: `wrappingAdd`, `wrappingSub` and `nextPowerOfTwo` wrap. A slot's `MaybeUninit`
payload is an `Option`; reading an uninitialised one is the fault `uninitRead`. `capacityOverflow` is the panic of a `Vec` whose
slots would take more than `isize::MAX` bytes, be it the first array or a doubled one; `slotBytes`, the size of a slot, is
a constant of the item type and comes with the constructors. `outOfBounds` is a failing index, and `looped` an exhausted loop
bound. An allocator that runs out of memory aborts the process and is not modelled.

Results:
- `run_rep`: over any run of distinct seqs in which no call meets `Misplaces` and fewer than `u64::MAX` calls are made,
  every state satisfies the representation invariant, the accounting closes, and emission followed by `flushRemaining` is
  strictly increasing in seq, or the slots outgrow a `Vec`.
- `misplaced_slot`: the growth loop may reach the ceiling without freeing the slot; the index computed before the growth
  is then used in the grown array, and the item lands in a slot that is not its own.
-/
import Mathlib.Tactic
import Mathlib.Data.List.Sort
import YouPipe.Core.Word
import YouPipe.Core.SlotTable

namespace YouPipe.Reorder

open YouPipe.Word YouPipe.SlotTable

/-! ## Model -/

/-- tag of an unoccupied slot; a seq is stored as `seq.wrapping_add(1)` -/
def UNOCCUPIED : ℕ := 0

/-- `item` is the `MaybeUninit` payload: `none` is uninitialised memory -/
structure Slot (α : Type) where
  tag : ℕ
  item : Option α
deriving DecidableEq, Repr

def emptySlot {α : Type} : Slot α := ⟨UNOCCUPIED, none⟩

/-- `size_of::<Slot<T>>()`: at least the eight bytes of the tag -/
structure SlotSize where
  bytes : ℕ
  tag_le : 8 ≤ bytes
deriving DecidableEq, Repr

/-- the slots of a `()` and of a word -/
def unitSlot : SlotSize := ⟨8, le_rfl⟩

def wordSlot : SlotSize := ⟨16, by decide⟩

/-- the most bytes that a `Vec` can have -/
def isizeMax : ℕ := 2 ^ 63 - 1

structure ReorderBuffer (α : Type) where
  slots : List (Slot α)
  nextExpected : ℕ
  len : ℕ
  mask : ℕ
  maxCapacity : ℕ
  dropped : ℕ
  /-- the size of a slot -/
  slotBytes : ℕ
deriving DecidableEq, Repr

inductive Fault where
  | capacityOverflow
  | outOfBounds
  | uninitRead
  | looped
deriving DecidableEq, Repr

variable {α : Type}

def withMaxInner (size : SlotSize) (capacity : ℕ) (maxCapacity : Option ℕ) : ReorderBuffer α :=
  let cap := nextPowerOfTwo (max capacity 1)
  let mx := match maxCapacity with
    | some m => max (nextPowerOfTwo (max m 1)) cap
    | none => cap
  ⟨[], 0, 0, wrappingSub cap 1, mx, 0, size.bytes⟩

def new (size : SlotSize) (capacity : ℕ) : ReorderBuffer α := withMaxInner size capacity none

def withMax (size : SlotSize) (initial maxCap : ℕ) : ReorderBuffer α := withMaxInner size initial (some maxCap)

/-- `capacity()`: `mask + 1` -/
def ReorderBuffer.capacity (b : ReorderBuffer α) : ℕ := wrappingAdd b.mask 1

def ReorderBuffer.slotAt (b : ReorderBuffer α) (i : ℕ) : Except Fault (Slot α) :=
  match b.slots[i]? with
  | some s => .ok s
  | none => .error .outOfBounds

/-- `n` empty slots, collected into a `Vec` -/
def ReorderBuffer.collectSlots (b : ReorderBuffer α) (n : ℕ) : Except Fault (List (Slot α)) :=
  if n * b.slotBytes ≤ isizeMax then .ok (List.replicate n emptySlot) else .error .capacityOverflow

/-- materialise the slot array on first use -/
def ReorderBuffer.ensureSlots (b : ReorderBuffer α) : Except Fault (ReorderBuffer α) :=
  if b.slots.isEmpty then do
    let slots ← b.collectSlots (b.mask + 1)
    .ok { b with slots := slots }
  else .ok b

/-- the occupied slots re-placed in `slots`, under the mask of the doubled array -/
def ReorderBuffer.replaced (b : ReorderBuffer α) (slots : List (Slot α)) : ReorderBuffer α :=
  let newCap := (b.mask + 1) * 2
  { b with
    slots := b.slots.foldl (fun acc slot =>
      if slot.tag ≠ UNOCCUPIED then acc.set (wrappingSub slot.tag 1 &&& (newCap - 1)) slot else acc) slots
    mask := newCap - 1 }

/-- double the slot array, re-placing the occupied slots -/
def ReorderBuffer.double (b : ReorderBuffer α) : Except Fault (ReorderBuffer α) := do
  let slots ← b.collectSlots ((b.mask + 1) * 2)
  .ok (b.replaced slots)

/-- grow until `seq` maps to a free slot or the ceiling is reached; the flag says whether `seq`'s slot is free -/
def ReorderBuffer.growFor : ℕ → ReorderBuffer α → ℕ → Except Fault (Bool × ReorderBuffer α)
  | 0, _, _ => .error .looped
  | fuel + 1, b, seq =>
    if b.maxCapacity ≤ b.mask + 1 then do
      let slot ← b.slotAt (seq &&& b.mask)
      .ok (decide (slot.tag = UNOCCUPIED), b)
    else do
      let b' ← b.double
      let slot ← b'.slotAt (seq &&& b'.mask)
      if slot.tag = UNOCCUPIED then .ok (true, b') else growFor fuel b' seq

/-- a `usize` capacity cannot double more than 64 times -/
def growBound : ℕ := 65

/-- drop the item of an occupied slot -/
def ReorderBuffer.evict (b : ReorderBuffer α) (idx : ℕ) (slot : Slot α) : Except Fault (ReorderBuffer α) :=
  match slot.item with
  | none => .error .uninitRead
  | some _ => .ok { b with dropped := b.dropped + 1, slots := b.slots.set idx ⟨slot.tag, none⟩, len := b.len - 1 }

/-- the part of `insert_into` that settles the index to write: growth, then the overwrite at the ceiling -/
def ReorderBuffer.claimSlot (b : ReorderBuffer α) (seq : ℕ) : Except Fault (ReorderBuffer α × ℕ) := do
  let idx := seq &&& b.mask
  let slot ← b.slotAt idx
  if slot.tag = UNOCCUPIED then .ok (b, idx)
  else do
    let (b, idx) ←
      if slot.tag = wrappingAdd seq 1 then .ok (b, idx)
      else do
        let (free, b') ← b.growFor growBound seq
        .ok (b', if free then seq &&& b'.mask else idx)
    let slot ← b.slotAt idx
    if slot.tag = UNOCCUPIED then .ok (b, idx)
    else do
      let b ← b.evict idx slot
      .ok (b, idx)

def ReorderBuffer.flushLoop : ℕ → ReorderBuffer α → Except Fault (ReorderBuffer α × List α)
  | 0, _ => .error .looped
  | fuel + 1, b => do
    let idx := b.nextExpected &&& b.mask
    let slot ← b.slotAt idx
    if slot.tag ≠ wrappingAdd b.nextExpected 1 then .ok (b, [])
    else match slot.item with
      | none => .error .uninitRead
      | some x => do
        let (b', out) ← flushLoop fuel { b with
          slots := b.slots.set idx emptySlot, len := b.len - 1, nextExpected := wrappingAdd b.nextExpected 1 }
        .ok (b', x :: out)

def ReorderBuffer.flushReadyInto (b : ReorderBuffer α) : Except Fault (ReorderBuffer α × List α) :=
  if b.len = 0 then .ok (b, []) else b.flushLoop (b.slots.length + 1)

/-- one arrival; the list is what the sink receives, in order -/
def ReorderBuffer.insertInto (b : ReorderBuffer α) (seq : ℕ) (item : α) :
    Except Fault (ReorderBuffer α × List α) :=
  if seq = b.nextExpected ∧ b.len = 0 then
    .ok ({ b with nextExpected := wrappingAdd b.nextExpected 1 }, [item])
  else do
    let b ← b.ensureSlots
    let (b, idx) ← b.claimSlot seq
    let b := { b with slots := b.slots.set idx ⟨wrappingAdd seq 1, some item⟩, len := b.len + 1 }
    b.flushReadyInto

/-- move every occupied slot's item out, in tag order. The swap loop of the source leaves the occupied slots, in index
order, at the front; the sort and the reads then touch only that front. -/
def ReorderBuffer.flushRemaining (b : ReorderBuffer α) : Except Fault (ReorderBuffer α × List α) := do
  let front := b.slots.filter fun s => s.tag ≠ UNOCCUPIED
  let rest := b.slots.filter fun s => s.tag = UNOCCUPIED
  let sorted := front.insertionSort fun s t => s.tag ≤ t.tag
  let out ← sorted.mapM fun s => match s.item with
    | none => .error .uninitRead
    | some x => .ok x
  .ok ({ b with slots := List.replicate front.length emptySlot ++ rest, len := 0 }, out)

/-- one call of a run, with everything emitted so far -/
def step (st : ReorderBuffer α × List α) (o : ℕ × α) : Except Fault (ReorderBuffer α × List α) := do
  let (b, out) ← st.1.insertInto o.1 o.2
  .ok (b, st.2 ++ out)

def run (b : ReorderBuffer α) (ops : List (ℕ × α)) : Except Fault (ReorderBuffer α × List α) := ops.foldlM step (b, [])

theorem step_of_insertInto {b : ReorderBuffer α} {out : List α} {seq : ℕ} {item : α} {e : Fault}
    (h : b.insertInto seq item = .error e) : step (b, out) (seq, item) = .error e := by
  rw [step, h]
  rfl

theorem run_snoc (b : ReorderBuffer α) (ops : List (ℕ × α)) (o : ℕ × α) :
    run b (ops ++ [o]) = (run b ops).bind fun st => step st o := by
  simp only [run, List.foldlM_append, List.foldlM_cons, List.foldlM_nil]
  cases ops.foldlM step (b, []) with
  | error e => rfl
  | ok st => cases h : step st o <;> simp [Except.bind, bind, h, pure, Except.pure]

/-! ## The representation -/

/-- the seq an occupied slot is stored under -/
def seqOf (s : Slot α) : Option ℕ := if s.tag = UNOCCUPIED then none else some (wrappingSub s.tag 1)

/-- the slot that holds item `p.2` under seq `p.1` -/
def entry (p : ℕ × α) : Slot α := ⟨p.1 + 1, some p.2⟩

/-- the buffer holds exactly the pairs `h`, each in its own slot -/
structure Core (b : ReorderBuffer α) (h : List (ℕ × α)) : Prop where
  pow : ∃ k, k ≤ 63 ∧ b.mask + 1 = 2 ^ k
  maxPow : ∃ j, j ≤ 63 ∧ b.maxCapacity = 2 ^ j
  le : b.mask + 1 ≤ b.maxCapacity
  size : b.slots = [] ∨ b.slots.length = b.mask + 1
  placed : Placed seqOf b.slots
  live : (live seqOf b.slots).Perm (h.map entry)
  small : ∀ p ∈ h, p.1 < maxVal
  len : b.len = h.length

theorem maxVal_lt {s : ℕ} (h : s < maxVal) : s + 1 < word := by unfold maxVal at h; omega

theorem seqOf_entry {p : ℕ × α} (h : p.1 < maxVal) : seqOf (entry p) = some p.1 := by
  have := maxVal_lt h
  simp [seqOf, entry, UNOCCUPIED, wrappingSub_succ (show p.1 < word by omega)]

theorem seqOf_none {s : Slot α} : seqOf s = none ↔ s.tag = UNOCCUPIED := by
  unfold seqOf; split_ifs with h <;> simp [h]

theorem seqOf_emptySlot : seqOf (emptySlot : Slot α) = none := by simp [seqOf, emptySlot]

theorem slotAt_ok {b : ReorderBuffer α} {i : ℕ} {s : Slot α} : b.slotAt i = .ok s ↔ b.slots[i]? = some s := by
  unfold ReorderBuffer.slotAt
  cases b.slots[i]? <;> simp

/-- the probe of a materialised array never leaves it -/
theorem probe_exists {b : ReorderBuffer α} {k : ℕ} (hk : b.mask + 1 = 2 ^ k) (hlen : b.slots.length = b.mask + 1) (s : ℕ) :
    ∃ slot, b.slots[s &&& b.mask]? = some slot := by
  rw [Word.and_mask hk]
  exact ⟨_, List.getElem?_eq_getElem (by rw [hlen]; exact Nat.mod_lt _ (Nat.succ_pos _))⟩

namespace Core

variable {b : ReorderBuffer α} {h : List (ℕ × α)}

theorem length_eq (hb : Core b h) (hne : b.slots ≠ []) : b.slots.length = b.mask + 1 := hb.size.resolve_left hne

theorem and_mask (hb : Core b h) (s : ℕ) : s &&& b.mask = s % (b.mask + 1) := by
  obtain ⟨k, -, hk⟩ := hb.pow
  exact Word.and_mask hk s

theorem slot_exists (hb : Core b h) (hne : b.slots ≠ []) (s : ℕ) : ∃ slot, b.slots[s &&& b.mask]? = some slot := by
  obtain ⟨k, -, hk⟩ := hb.pow
  exact probe_exists hk (hb.length_eq hne) s

/-- an occupied slot holds one of the pairs, in that pair's place -/
theorem occupied (hb : Core b h) {i : ℕ} {slot : Slot α} (hs : b.slots[i]? = some slot) (ht : slot.tag ≠ UNOCCUPIED) :
    ∃ p ∈ h, slot = entry p ∧ p.1 % b.slots.length = i := by
  have hsome : seqOf slot ≠ none := fun hn => ht (seqOf_none.1 hn)
  obtain ⟨k, hk⟩ := Option.ne_none_iff_exists'.1 hsome
  have hmem : slot ∈ SlotTable.live seqOf b.slots := (mem_live seqOf).2 ⟨List.mem_of_getElem? hs, k, hk⟩
  obtain ⟨p, hp, rfl⟩ := List.mem_map.1 (hb.live.mem_iff.1 hmem)
  exact ⟨p, hp, rfl, hb.placed i _ _ hs (seqOf_entry (hb.small p hp))⟩

/-- every pair sits in the slot of its seq -/
theorem slot_of (hb : Core b h) {p : ℕ × α} (hp : p ∈ h) : b.slots[p.1 &&& b.mask]? = some (entry p) := by
  have hmem : entry p ∈ SlotTable.live seqOf b.slots := hb.live.mem_iff.2 (List.mem_map_of_mem hp)
  obtain ⟨i, hi⟩ := List.getElem?_of_mem ((mem_live seqOf).1 hmem).1
  have hne : b.slots ≠ [] := by rintro hnil; simp [hnil] at hi
  have := hb.placed i _ _ hi (seqOf_entry (hb.small p hp))
  rw [hb.length_eq hne, ← hb.and_mask] at this
  rw [this]; exact hi

theorem nodup (hb : Core b h) : (h.map Prod.fst).Nodup := by
  have hpw := (hb.live.pairwise_iff (fun hab kb ka hkb hka => (hab ka kb hka hkb).symm)).1 hb.placed.pairwise
  rw [List.pairwise_map] at hpw
  rw [List.Nodup, List.pairwise_map]
  refine hpw.imp_of_mem fun {p q} hp hq hpq heq => ?_
  exact hpq p.1 q.1 (seqOf_entry (hb.small p hp)) (seqOf_entry (hb.small q hq)) (by rw [heq])

/-- emptying the slot of one pair leaves the others; the cursor and the drop count are the caller's -/
theorem clear {h' : List (ℕ × α)} (hb : Core b h) {i : ℕ} {p : ℕ × α} (hslot : b.slots[i]? = some (entry p))
    (hperm : h.Perm (p :: h')) (n d : ℕ) :
    Core { b with slots := b.slots.set i emptySlot, len := b.len - 1, nextExpected := n, dropped := d } h' := by
  have hne : b.slots ≠ [] := by rintro hnil; simp [hnil] at hslot
  have hp : p ∈ h := hperm.mem_iff.2 List.mem_cons_self
  refine ⟨hb.pow, hb.maxPow, hb.le, Or.inr ?_, ?_, ?_, ?_, ?_⟩
  · simp [hb.length_eq hne]
  · exact placed_set seqOf hb.placed _ _ fun k hk => by simp [seqOf_emptySlot] at hk
  · have h1 := live_clear seqOf hslot seqOf_emptySlot (seqOf_entry (hb.small p hp))
    exact (h1.symm.trans (hb.live.trans (hperm.map entry))).cons_inv
  · exact fun q hq => hb.small q (hperm.mem_iff.2 (List.mem_cons_of_mem _ hq))
  · have h1 := hperm.length_eq
    have h2 := hb.len
    simp only [List.length_cons] at h1 ⊢; omega

end Core

/-! ## Growth -/

/-- the buffer with an array of twice the size -/
def ReorderBuffer.twice (b : ReorderBuffer α) : ReorderBuffer α := b.replaced (List.replicate ((b.mask + 1) * 2) emptySlot)

theorem double_eq {b : ReorderBuffer α} (hfit : (b.mask + 1) * 2 * b.slotBytes ≤ isizeMax) : b.double = .ok b.twice := by
  simp only [ReorderBuffer.double, ReorderBuffer.collectSlots, hfit, if_true]
  rfl

theorem double_over {b : ReorderBuffer α} (hover : ¬ (b.mask + 1) * 2 * b.slotBytes ≤ isizeMax) :
    b.double = .error .capacityOverflow := by
  simp only [ReorderBuffer.double, ReorderBuffer.collectSlots, hover, if_false]
  rfl

theorem double_slots (b : ReorderBuffer α) {k : ℕ} (hk : b.mask + 1 = 2 ^ k) :
    b.twice.slots = rehash seqOf ((b.mask + 1) * 2) emptySlot b.slots := by
  have hmask : (b.mask + 1) * 2 - 1 + 1 = 2 ^ (k + 1) := by rw [hk, pow_succ]; have := Nat.one_le_two_pow (n := k); omega
  unfold ReorderBuffer.twice ReorderBuffer.replaced rehash
  simp only
  congr 1
  funext acc slot
  by_cases ht : slot.tag = UNOCCUPIED
  · simp [seqOf, ht]
  · simp only [seqOf, ht, ne_eq, not_false_eq_true, if_true, if_false]
    rw [Word.and_mask hmask, show (b.mask + 1) * 2 - 1 + 1 = (b.mask + 1) * 2 by omega]

/-- the rehash of a placed array: twice the slots, placed again, and the same occupied slots -/
theorem double_placed {b : ReorderBuffer α} {k : ℕ} (hk : b.mask + 1 = 2 ^ k) (hlen : b.slots.length = b.mask + 1)
    (hplaced : Placed seqOf b.slots) :
    b.twice.slots.length = (b.mask + 1) * 2 ∧ Placed seqOf b.twice.slots ∧
      (live seqOf b.twice.slots).Perm (live seqOf b.slots) := by
  have hd := hplaced.pairwise_of_dvd seqOf (show b.slots.length ∣ (b.mask + 1) * 2 by
    rw [hlen]; exact Nat.dvd_mul_right _ _)
  rw [double_slots b hk]
  exact rehash_spec seqOf (by omega) seqOf_emptySlot b.slots hd

theorem double_mask (b : ReorderBuffer α) : b.twice.mask + 1 = (b.mask + 1) * 2 := by
  show (b.mask + 1) * 2 - 1 + 1 = _
  omega

/-- powers of two: below the ceiling there is room for one doubling -/
theorem double_le {b : ReorderBuffer α} {k j : ℕ} (hk : b.mask + 1 = 2 ^ k) (hj : b.maxCapacity = 2 ^ j)
    (hlt : b.mask + 1 < b.maxCapacity) : k < j ∧ (b.mask + 1) * 2 ≤ b.maxCapacity := by
  have hkj : k < j := (Nat.pow_lt_pow_iff_right (a := 2) (by norm_num)).1 (by rw [← hk, ← hj]; exact hlt)
  refine ⟨hkj, ?_⟩
  rw [hk, hj, ← pow_succ]
  exact Nat.pow_le_pow_right (by norm_num) hkj

/-- **Doubling keeps every pair**, each at its index under the new mask -/
theorem double_core {b : ReorderBuffer α} {h : List (ℕ × α)} (hb : Core b h) (hne : b.slots ≠ [])
    (hlt : b.mask + 1 < b.maxCapacity) :
    Core b.twice h ∧ b.twice.slots ≠ [] ∧ b.twice.mask + 1 = (b.mask + 1) * 2 := by
  obtain ⟨k, hk63, hk⟩ := hb.pow
  obtain ⟨j, hj63, hj⟩ := hb.maxPow
  obtain ⟨hkj, hroom⟩ := double_le hk hj hlt
  have hmask := double_mask b
  obtain ⟨h1, h2, h3⟩ := double_placed hk (hb.length_eq hne) hb.placed
  refine ⟨⟨⟨k + 1, by omega, by rw [hmask, hk, pow_succ]⟩, hb.maxPow, ?_, Or.inr (h1.trans hmask.symm), h2,
    h3.trans hb.live, hb.small, hb.len⟩, ?_, hmask⟩
  · rw [hmask]
    exact hroom
  · intro hnil; rw [hnil] at h1; simp at h1

/-- the fields growth leaves alone -/
structure SameCounters (b b' : ReorderBuffer α) : Prop where
  next : b'.nextExpected = b.nextExpected
  len : b'.len = b.len
  maxCap : b'.maxCapacity = b.maxCapacity
  dropped : b'.dropped = b.dropped
  bytes : b'.slotBytes = b.slotBytes

/-- `growFor` at the ceiling only looks -/
theorem growFor_ceiling {b : ReorderBuffer α} {seq : ℕ} {slot : Slot α} (hmax : b.maxCapacity ≤ b.mask + 1)
    (hslot : b.slots[seq &&& b.mask]? = some slot) (fuel : ℕ) :
    b.growFor (fuel + 1) seq = .ok (decide (slot.tag = UNOCCUPIED), b) := by
  simp [ReorderBuffer.growFor, hmax, slotAt_ok.2 hslot, bind, Except.bind]

/-- below it `growFor` doubles, and goes on while the slot is taken -/
theorem growFor_below {b : ReorderBuffer α} {seq : ℕ} {slot : Slot α} (hmax : ¬ b.maxCapacity ≤ b.mask + 1)
    (hfit : (b.mask + 1) * 2 * b.slotBytes ≤ isizeMax) (hslot : b.twice.slots[seq &&& b.twice.mask]? = some slot) (fuel : ℕ) :
    b.growFor (fuel + 1) seq = if slot.tag = UNOCCUPIED then .ok (true, b.twice) else b.twice.growFor fuel seq := by
  simp [ReorderBuffer.growFor, hmax, double_eq hfit, slotAt_ok.2 hslot, bind, Except.bind]

/-- and it panics when the doubled array cannot be -/
theorem growFor_over {b : ReorderBuffer α} {seq : ℕ} (hmax : ¬ b.maxCapacity ≤ b.mask + 1)
    (hover : ¬ (b.mask + 1) * 2 * b.slotBytes ≤ isizeMax) (fuel : ℕ) : b.growFor (fuel + 1) seq = .error .capacityOverflow := by
  simp [ReorderBuffer.growFor, hmax, double_over hover, bind, Except.bind]

/-- the outcome of `growFor` unless it panics: same pairs, and the flag is right about `seq`'s slot -/
theorem growFor_spec {h : List (ℕ × α)} (seq fuel : ℕ) :
    ∀ b : ReorderBuffer α, Core b h → b.slots ≠ [] → b.maxCapacity < (b.mask + 1) * 2 ^ fuel →
      b.growFor fuel seq ≠ .error .capacityOverflow →
      ∃ free b' slot, b.growFor fuel seq = .ok (free, b') ∧ Core b' h ∧ b'.slots ≠ [] ∧ SameCounters b b' ∧
        b'.slots[seq &&& b'.mask]? = some slot ∧ (free = true ↔ slot.tag = UNOCCUPIED) ∧
        (free = false → b'.mask + 1 = b'.maxCapacity) := by
  induction fuel with
  | zero => intro b hb _ hf; have := hb.le; omega
  | succ fuel ih =>
    intro b hb hne hf hno
    by_cases hmax : b.maxCapacity ≤ b.mask + 1
    · obtain ⟨slot, hslot⟩ := hb.slot_exists hne seq
      refine ⟨decide (slot.tag = UNOCCUPIED), b, slot, ?_, hb, hne, ⟨rfl, rfl, rfl, rfl, rfl⟩, hslot, by simp, fun _ => ?_⟩
      · exact growFor_ceiling hmax hslot fuel
      · have := hb.le; omega
    · have hfit : (b.mask + 1) * 2 * b.slotBytes ≤ isizeMax := by
        by_contra hover
        exact hno (growFor_over hmax hover fuel)
      obtain ⟨hd, hdne, hdm⟩ := double_core hb hne (by omega)
      obtain ⟨slot, hslot⟩ := hd.slot_exists hdne seq
      rw [growFor_below hmax hfit hslot] at hno ⊢
      by_cases ht : slot.tag = UNOCCUPIED
      · exact ⟨true, b.twice, slot, if_pos ht, hd, hdne, ⟨rfl, rfl, rfl, rfl, rfl⟩, hslot, by simp [ht], by simp⟩
      · have hf' : b.twice.maxCapacity < (b.twice.mask + 1) * 2 ^ fuel := by
          show b.maxCapacity < _
          rw [hdm, mul_assoc, ← pow_succ']; exact hf
        rw [if_neg ht] at hno ⊢
        obtain ⟨free, b', slot', hrun, hb', hne', hsame, hs', hfree, hceil⟩ := ih b.twice hd hdne hf' hno
        exact ⟨free, b', slot', hrun, hb', hne', ⟨hsame.next, hsame.len, hsame.maxCap, hsame.dropped, hsame.bytes⟩, hs',
          hfree, hceil⟩

/-- a growth that panics meets a capacity that cannot be doubled, where another seq has the slot -/
theorem growFor_panics {h : List (ℕ × α)} (seq fuel : ℕ) :
    ∀ b : ReorderBuffer α, Core b h → b.slots ≠ [] → b.growFor fuel seq = .error .capacityOverflow →
      (∃ slot, b.slots[seq &&& b.mask]? = some slot ∧ slot.tag ≠ UNOCCUPIED) →
      ∃ i, 2 ^ i * 2 ≤ b.maxCapacity ∧ isizeMax < 2 ^ i * 2 * b.slotBytes ∧ ∃ p ∈ h, p.1 % 2 ^ i = seq % 2 ^ i := by
  induction fuel with
  | zero => intro b _ _ hpan; simp [ReorderBuffer.growFor] at hpan
  | succ fuel ih =>
    rintro b hb hne hpan ⟨slot, hslot, hocc⟩
    by_cases hmax : b.maxCapacity ≤ b.mask + 1
    · rw [growFor_ceiling hmax hslot] at hpan
      cases hpan
    · by_cases hfit : (b.mask + 1) * 2 * b.slotBytes ≤ isizeMax
      · obtain ⟨hd, hdne, -⟩ := double_core hb hne (by omega)
        obtain ⟨slot', hslot'⟩ := hd.slot_exists hdne seq
        rw [growFor_below hmax hfit hslot'] at hpan
        split_ifs at hpan with ht
        exact ih b.twice hd hdne hpan ⟨slot', hslot', ht⟩
      · obtain ⟨k, -, hk⟩ := hb.pow
        obtain ⟨j, -, hj⟩ := hb.maxPow
        obtain ⟨p, hp, rfl, hpi⟩ := hb.occupied hslot hocc
        rw [hb.length_eq hne, hb.and_mask] at hpi
        exact ⟨k, hk ▸ (double_le hk hj (by omega)).2, hk ▸ Nat.lt_of_not_le hfit, p, hp, hk ▸ hpi⟩

/-! ## Settling the slot -/

/-- the call that goes wrong: below the ceiling, an arrival that aliases a held seq even at the ceiling, and whose index
at the ceiling is not its index now -/
def Misplaces (b : ReorderBuffer α) (seq : ℕ) : Prop :=
  b.mask + 1 < b.maxCapacity ∧ seq &&& b.mask ≠ seq &&& (b.maxCapacity - 1) ∧
    ∃ slot ∈ b.slots, slot.tag ≠ UNOCCUPIED ∧ slot.tag ≠ wrappingAdd seq 1 ∧
      wrappingSub slot.tag 1 &&& (b.maxCapacity - 1) = seq &&& (b.maxCapacity - 1)

instance (b : ReorderBuffer α) (seq : ℕ) : Decidable (Misplaces b seq) :=
  inferInstanceAs (Decidable (_ ∧ _ ∧ ∃ slot ∈ b.slots, _))

/-- write `(seq, item)` at `idx` -/
def ReorderBuffer.write (b : ReorderBuffer α) (idx seq : ℕ) (item : α) : ReorderBuffer α :=
  { b with slots := b.slots.set idx ⟨wrappingAdd seq 1, some item⟩, len := b.len + 1 }

theorem entry_eq {seq : ℕ} (hs : seq < maxVal) (item : α) : (⟨wrappingAdd seq 1, some item⟩ : Slot α) = entry (seq, item) := by
  simp [entry, wrappingAdd_of_lt (maxVal_lt hs)]

/-- writing into a free slot adds the pair -/
theorem write_free {b : ReorderBuffer α} {h : List (ℕ × α)} (hb : Core b h) {seq : ℕ} (hs : seq < maxVal) (item : α)
    {slot : Slot α} (hslot : b.slots[seq &&& b.mask]? = some slot) (hfree : slot.tag = UNOCCUPIED) :
    Core (b.write (seq &&& b.mask) seq item) ((seq, item) :: h) := by
  have hne : b.slots ≠ [] := by rintro hnil; simp [hnil] at hslot
  have hkey : seqOf (entry (seq, item)) = some seq := seqOf_entry (p := (seq, item)) hs
  refine ⟨hb.pow, hb.maxPow, hb.le, Or.inr ?_, ?_, ?_, ?_, ?_⟩
  · simp [ReorderBuffer.write, hb.length_eq hne]
  · refine placed_set seqOf hb.placed _ _ fun k hk => ?_
    rw [entry_eq hs, hkey] at hk
    cases hk; rw [hb.length_eq hne, hb.and_mask]
  · simp only [ReorderBuffer.write, entry_eq hs, List.map_cons]
    exact (live_fill seqOf hslot (seqOf_none.2 hfree) hkey).trans (hb.live.cons _)
  · rintro p (_ | ⟨_, hp⟩)
    · exact hs
    · exact hb.small p hp
  · simp [ReorderBuffer.write, hb.len]

/-- evicting an occupied slot and writing into it replaces the pair it held -/
theorem write_evicted {b : ReorderBuffer α} {h : List (ℕ × α)} (hb : Core b h) {seq : ℕ} (hs : seq < maxVal)
    {p : ℕ × α} (hp : p ∈ h) (hslot : b.slots[seq &&& b.mask]? = some (entry p)) :
    ∃ b' h', b.evict (seq &&& b.mask) (entry p) = .ok b' ∧ h.Perm (p :: h') ∧ b'.mask = b.mask ∧
      b'.nextExpected = b.nextExpected ∧ b'.maxCapacity = b.maxCapacity ∧ b'.dropped = b.dropped + 1 ∧
      ∀ item, Core (b'.write (seq &&& b.mask) seq item) ((seq, item) :: h') := by
  obtain ⟨l, r, rfl⟩ := List.append_of_mem hp
  have hperm : (l ++ p :: r).Perm (p :: (l ++ r)) := List.perm_middle
  have hclear := hb.clear hslot hperm b.nextExpected (b.dropped + 1)
  have hidx : (seq &&& b.mask) < b.slots.length := (List.getElem?_eq_some_iff.1 hslot).1
  refine ⟨_, l ++ r, rfl, hperm, rfl, rfl, rfl, rfl, fun item => ?_⟩
  have hempty : (b.slots.set (seq &&& b.mask) emptySlot)[seq &&& b.mask]? = some emptySlot := by simp [hidx]
  have := write_free hclear hs item hempty rfl
  simpa [ReorderBuffer.write, List.set_set] using this

/-- an arrival that does not misplace gets its own slot; the only pair it may cost shares its residue at the ceiling -/
theorem claimSlot_spec {b : ReorderBuffer α} {h : List (ℕ × α)} (hb : Core b h) (hne : b.slots ≠ []) {seq : ℕ}
    (hs : seq < maxVal) (hnew : ∀ p ∈ h, p.1 ≠ seq) (hgood : ¬ Misplaces b seq)
    (hno : b.claimSlot seq ≠ .error .capacityOverflow) :
    ∃ b' h' ev, b.claimSlot seq = .ok (b', seq &&& b'.mask) ∧ h.Perm (ev ++ h') ∧
      b'.nextExpected = b.nextExpected ∧ b'.maxCapacity = b.maxCapacity ∧ b'.dropped = b.dropped + ev.length ∧
      (∀ e ∈ ev, e.1 % b.maxCapacity = seq % b.maxCapacity) ∧ b'.slots ≠ [] ∧
      ∀ item, Core (b'.write (seq &&& b'.mask) seq item) ((seq, item) :: h') := by
  obtain ⟨slot, hslot⟩ := hb.slot_exists hne seq
  by_cases hfree : slot.tag = UNOCCUPIED
  · refine ⟨b, h, [], ?_, by simp, rfl, rfl, by simp, by simp, hne, fun item => write_free hb hs item hslot hfree⟩
    simp [ReorderBuffer.claimSlot, slotAt_ok.2 hslot, bind, Except.bind, hfree]
  · obtain ⟨p, hp, rfl, hpidx⟩ := hb.occupied hslot hfree
    have htag : (entry p).tag ≠ wrappingAdd seq 1 := by
      rw [wrappingAdd_of_lt (maxVal_lt hs)]
      have := hnew p hp
      simp only [entry]; omega
    obtain ⟨j, hj63, hj⟩ := hb.maxPow
    have hfuel : b.maxCapacity < (b.mask + 1) * 2 ^ growBound := by
      calc b.maxCapacity = 2 ^ j := hj
        _ < 2 ^ growBound := Nat.pow_lt_pow_right (by norm_num) (by unfold growBound; omega)
        _ ≤ (b.mask + 1) * 2 ^ growBound := Nat.le_mul_of_pos_left _ (Nat.succ_pos _)
    have hroom : b.growFor growBound seq ≠ .error .capacityOverflow := by
      intro hpan
      exact hno (by simp [ReorderBuffer.claimSlot, slotAt_ok.2 hslot, bind, Except.bind, hfree, htag, hpan])
    obtain ⟨free, b', slot', hgrow, hb', hne', hsame, hslot', hiff, hceil⟩ :=
      growFor_spec seq growBound b hb hne hfuel hroom
    cases free with
    | true =>
      have hfree' := hiff.1 rfl
      refine ⟨b', h, [], ?_, by simp, hsame.next, hsame.maxCap, by simp [hsame.dropped], by simp, hne',
        fun item => write_free hb' hs item hslot' hfree'⟩
      simp [ReorderBuffer.claimSlot, slotAt_ok.2 hslot, slotAt_ok.2 hslot', bind, Except.bind, hfree, htag, hgrow, hfree']
    | false =>
      have hocc : slot'.tag ≠ UNOCCUPIED := fun hf => Bool.false_ne_true (hiff.2 hf)
      obtain ⟨q, hq, rfl, hqidx⟩ := hb'.occupied hslot' hocc
      have hcap : b'.mask + 1 = b.maxCapacity := by rw [hceil rfl, hsame.maxCap]
      have hres : q.1 % b.maxCapacity = seq % b.maxCapacity := by
        rw [← hcap, ← hb'.length_eq hne', hqidx, hb'.and_mask, hb'.length_eq hne']
      -- the index settled before the growth is the index at the ceiling
      have hmask' : b'.mask = b.maxCapacity - 1 := by omega
      have hidx : seq &&& b.mask = seq &&& b'.mask := by
        by_cases hm : b.mask + 1 < b.maxCapacity
        · by_contra hdiff
          refine hgood ⟨hm, by rwa [hmask'] at hdiff, entry q, List.mem_of_getElem? (hb.slot_of hq), hocc, ?_, ?_⟩
          · rw [wrappingAdd_of_lt (maxVal_lt hs)]
            have := hnew q hq
            simp only [entry]; omega
          · rw [← hmask', hb'.and_mask, hb'.and_mask, hcap, ← hres]
            have := maxVal_lt (hb.small q hq)
            rw [show (entry q).tag = q.1 + 1 from rfl, wrappingSub_succ (by omega)]
        · have := hb.le
          rw [show b.mask = b'.mask by omega]
      obtain ⟨b'', h'', hev, hperm, hm'', hn'', hx'', hd'', hw⟩ := write_evicted hb' hs hq hslot'
      refine ⟨b'', h'', [q], ?_, by simpa using hperm, by rw [hn'', hsame.next], by rw [hx'', hsame.maxCap],
        by simp [hd'', hsame.dropped], by simpa using hres, ?_, fun item => by rw [hm'']; exact hw item⟩
      · rw [hidx] at hslot
        simp [ReorderBuffer.claimSlot, hidx, slotAt_ok.2 hslot, bind, Except.bind, hfree, htag, hgrow,
          slotAt_ok.2 hslot', hocc, hev, hm'']
      · rintro hnil
        have := (hw q.2).live.length_eq
        simp [ReorderBuffer.write, hnil, SlotTable.live] at this

/-! ## The flush cascade -/

/-- the flush hands over the contiguous run at `nextExpected` and stops at the first seq that is not held -/
theorem flushLoop_spec (fuel : ℕ) : ∀ (b : ReorderBuffer α) (h : List (ℕ × α)), Core b h → b.slots ≠ [] →
    h.length < fuel → b.nextExpected + h.length < maxVal →
    ∃ b' out h', b.flushLoop fuel = .ok (b', out.map Prod.snd) ∧ Core b' h' ∧ h.Perm (out ++ h') ∧
      out.map Prod.fst = List.range' b.nextExpected out.length ∧ b'.nextExpected = b.nextExpected + out.length ∧
      b'.dropped = b.dropped ∧ b'.maxCapacity = b.maxCapacity ∧ ∀ p ∈ h', p.1 ≠ b'.nextExpected := by
  induction fuel with
  | zero => intro b h _ _ hf; omega
  | succ fuel ih =>
    intro b h hb hne hf hmax
    obtain ⟨slot, hslot⟩ := hb.slot_exists hne b.nextExpected
    have htagval : wrappingAdd b.nextExpected 1 = b.nextExpected + 1 := wrappingAdd_of_lt (maxVal_lt (by omega))
    by_cases ht : slot.tag = b.nextExpected + 1
    · obtain ⟨p, hp, rfl, hpidx⟩ := hb.occupied hslot (by rw [ht]; simp [UNOCCUPIED])
      have hpn : p.1 = b.nextExpected := by simpa [entry] using ht
      obtain ⟨l, r, rfl⟩ := List.append_of_mem hp
      have hperm : (l ++ p :: r).Perm (p :: (l ++ r)) := List.perm_middle
      have hb1 := hb.clear hslot hperm (wrappingAdd b.nextExpected 1) b.dropped
      have hlen := hperm.length_eq
      simp only [List.length_cons] at hlen
      obtain ⟨b', out, h', hrun, hb', hpm, hfst, hnext, hdrop, hcap, hstop⟩ :=
        ih _ (l ++ r) hb1 (by simpa using hne) (by omega) (by show wrappingAdd _ _ + _ < _; omega)
      refine ⟨b', p :: out, h', ?_, hb', hperm.trans (hpm.cons p), ?_, ?_, hdrop, hcap, hstop⟩
      · simp only [ReorderBuffer.flushLoop, slotAt_ok.2 hslot, bind, Except.bind, ht, htagval]
        simp only [htagval] at hrun
        simp [entry, hrun]
      · simp only [List.map_cons, List.length_cons, List.range'_succ, hpn]
        rw [hfst]; simp only [htagval]
      · simp only [htagval] at hnext
        simp only [List.length_cons]; omega
    · refine ⟨b, [], h, ?_, hb, by simp, by simp, by simp, rfl, rfl, fun p hp hpe => ht ?_⟩
      · simp [ReorderBuffer.flushLoop, slotAt_ok.2 hslot, bind, Except.bind, htagval, ht]
      · have := hb.slot_of hp
        rw [hpe, hslot] at this
        cases this; simp [entry, hpe]

/-! ## One call -/

theorem ensureSlots_core {b : ReorderBuffer α} {h : List (ℕ × α)} (hb : Core b h)
    (hno : b.ensureSlots ≠ .error .capacityOverflow) :
    ∃ b', b.ensureSlots = .ok b' ∧ Core b' h ∧ b'.slots ≠ [] ∧ b'.mask = b.mask ∧ SameCounters b b' ∧
      live seqOf b'.slots = live seqOf b.slots := by
  unfold ReorderBuffer.ensureSlots ReorderBuffer.collectSlots at hno ⊢
  by_cases hnil : b.slots = []
  · rw [hnil, List.isEmpty_nil, if_pos rfl] at hno ⊢
    have hfit : (b.mask + 1) * b.slotBytes ≤ isizeMax := by
      by_contra hover
      exact hno (by rw [if_neg hover]; rfl)
    have hlive : live seqOf (List.replicate (b.mask + 1) (emptySlot : Slot α)) = live seqOf b.slots := by
      rw [live_replicate seqOf _ seqOf_emptySlot, hnil]; rfl
    refine ⟨{ b with slots := List.replicate (b.mask + 1) emptySlot }, by rw [if_pos hfit]; rfl, ?_, by simp, rfl,
      ⟨rfl, rfl, rfl, rfl, rfl⟩, by rw [← hnil]; exact hlive⟩
    exact ⟨hb.pow, hb.maxPow, hb.le, Or.inr (by simp), placed_replicate seqOf _ seqOf_emptySlot,
      by rw [hlive]; exact hb.live, hb.small, hb.len⟩
  · exact ⟨b, by rw [if_neg (by simpa using hnil)], hb, hnil, rfl, ⟨rfl, rfl, rfl, rfl, rfl⟩, rfl⟩

/-- a call panics with its first array or with its growth -/
theorem insertInto_of_ensureSlots {b : ReorderBuffer α} {seq : ℕ} {item : α} {e : Fault}
    (hslow : ¬ (seq = b.nextExpected ∧ b.len = 0)) (hpan : b.ensureSlots = .error e) : b.insertInto seq item = .error e := by
  rw [ReorderBuffer.insertInto, if_neg hslow, hpan]
  rfl

theorem insertInto_of_claimSlot {b b1 : ReorderBuffer α} {seq : ℕ} {item : α} {e : Fault}
    (hslow : ¬ (seq = b.nextExpected ∧ b.len = 0)) (hens : b.ensureSlots = .ok b1) (hpan : b1.claimSlot seq = .error e) :
    b.insertInto seq item = .error e := by
  rw [ReorderBuffer.insertInto, if_neg hslow, hens]
  simp only [bind, Except.bind, hpan]

/-- **One call.** An arrival at or past the cursor, not already held, that does not misplace: the sink gets the contiguous
run from the cursor, every pair is emitted, still held or counted as dropped, and a dropped pair shares the arrival's
residue at the ceiling. -/
theorem insertInto_spec {b : ReorderBuffer α} {h : List (ℕ × α)} (hb : Core b h) {seq : ℕ} (item : α)
    (hs : seq < maxVal) (hge : b.nextExpected ≤ seq) (hnew : ∀ p ∈ h, p.1 ≠ seq) (hahead : ∀ p ∈ h, b.nextExpected < p.1)
    (hroom : b.nextExpected + h.length + 1 < maxVal) (hgood : ¬ Misplaces b seq)
    (hno : b.insertInto seq item ≠ .error .capacityOverflow) :
    ∃ b' out h' ev, b.insertInto seq item = .ok (b', out.map Prod.snd) ∧ Core b' h' ∧
      ((seq, item) :: h).Perm (out ++ h' ++ ev) ∧ out.map Prod.fst = List.range' b.nextExpected out.length ∧
      b'.nextExpected = b.nextExpected + out.length ∧ b'.maxCapacity = b.maxCapacity ∧
      b'.dropped = b.dropped + ev.length ∧ (∀ e ∈ ev, e ∈ h ∧ e.1 % b.maxCapacity = seq % b.maxCapacity) ∧
      ∀ p ∈ h', b'.nextExpected < p.1 := by
  by_cases hfast : seq = b.nextExpected ∧ b.len = 0
  · obtain ⟨rfl, hlen⟩ := hfast
    have hnil : h = [] := List.length_eq_zero_iff.1 (by rw [← hb.len, hlen])
    subst hnil
    have hnext : wrappingAdd b.nextExpected 1 = b.nextExpected + 1 := wrappingAdd_of_lt (maxVal_lt hs)
    refine ⟨{ b with nextExpected := b.nextExpected + 1 }, [(b.nextExpected, item)], [], [], ?_,
      ⟨hb.pow, hb.maxPow, hb.le, hb.size, hb.placed, hb.live, hb.small, hb.len⟩, by simp, by simp, rfl, rfl, rfl,
      by simp, by simp⟩
    simp [ReorderBuffer.insertInto, hlen, hnext]
  · obtain ⟨b1, he, hb1, hne1, hm1, hsame1, hlive1⟩ :=
      ensureSlots_core hb fun hpan => hno (insertInto_of_ensureSlots hfast hpan)
    have hgood1 : ¬ Misplaces b1 seq := by
      rintro ⟨h1, h2, slot, hslot, hocc, htag, hres⟩
      have hkey : ∃ k, seqOf slot = some k := ⟨_, by simp [seqOf, hocc]; rfl⟩
      have hmem : slot ∈ live seqOf b.slots := hlive1 ▸ (mem_live seqOf).2 ⟨hslot, hkey⟩
      rw [hsame1.maxCap] at h1 h2 hres
      rw [hm1] at h1 h2
      exact hgood ⟨h1, h2, slot, ((mem_live seqOf).1 hmem).1, hocc, htag, hres⟩
    obtain ⟨b2, h2, ev, hc, hperm, hn2, hx2, hd2, hev, hne2, hw⟩ :=
      claimSlot_spec hb1 hne1 hs hnew hgood1 fun hpan => hno (insertInto_of_claimSlot hfast he hpan)
    have hb3 := hw item
    set b3 := b2.write (seq &&& b2.mask) seq item
    have hn3 : b3.nextExpected = b.nextExpected := hn2.trans hsame1.next
    have hne3 : b3.slots ≠ [] := by
      intro hnil
      have := congrArg List.length hnil
      simp only [b3, ReorderBuffer.write, List.length_set, List.length_nil, List.length_eq_zero_iff] at this
      exact hne2 this
    have hsz : b3.slots.length + 1 > ((seq, item) :: h2).length := by
      have h1 := hb3.live.length_eq
      have h2 : (live seqOf b3.slots).length ≤ b3.slots.length := List.length_filter_le _ _
      rw [List.length_map] at h1; omega
    have hlen2 := hperm.length_eq
    rw [List.length_append] at hlen2
    obtain ⟨b', out, h', hrun, hb', hpm, hfst, hnext, hdrop, hcap, hstop⟩ :=
      flushLoop_spec _ b3 _ hb3 hne3 hsz (by rw [hn3]; simp only [List.length_cons]; omega)
    have hmem' : ∀ p ∈ h', p = (seq, item) ∨ p ∈ h := fun p hp => by
      rcases List.mem_cons.1 (hpm.mem_iff.2 (List.mem_append_right _ hp)) with h | h
      · exact Or.inl h
      · exact Or.inr (hperm.mem_iff.2 (List.mem_append_right _ h))
    rw [hn3] at hfst hnext
    refine ⟨b', out, h', ev, ?_, hb', ?_, hfst, hnext, ?_, ?_, fun e he => ⟨hperm.mem_iff.2 (List.mem_append_left _ he), ?_⟩,
      fun p hp => ?_⟩
    · have hlen3 : b3.len ≠ 0 := Nat.succ_ne_zero _
      rw [ReorderBuffer.insertInto, if_neg hfast]
      simp only [he, hc, bind, Except.bind, ReorderBuffer.flushReadyInto]
      exact (if_neg hlen3).trans hrun
    · calc ((seq, item) :: h).Perm ((seq, item) :: (ev ++ h2)) := hperm.cons _
        _ |>.Perm (((seq, item) :: h2) ++ ev) := (List.perm_append_comm).cons _
        _ |>.Perm (out ++ h' ++ ev) := hpm.append_right _
    · rw [hcap]; exact hx2.trans hsame1.maxCap
    · rw [hdrop]; show b2.dropped = _; rw [hd2, hsame1.dropped]
    · rw [← hsame1.maxCap]; exact hev e he
    · -- a held seq is at or past the cursor's old value and was not emitted
      have hne' := hstop p hp
      have hge' : b.nextExpected ≤ p.1 := by
        rcases hmem' p hp with rfl | hph
        · exact hge
        · exact (hahead p hph).le
      have hnd := hb3.nodup
      have hnd' := ((hpm.map Prod.fst).nodup_iff).1 hnd
      rw [List.map_append, hfst] at hnd'
      have hnot : p.1 ∉ List.range' b.nextExpected out.length := fun hin =>
        (List.nodup_append.1 hnd').2.2 _ hin _ (List.mem_map_of_mem hp) rfl
      rw [List.mem_range'_1] at hnot
      omega

/-! ## Calls that panic -/

theorem ok_of_bind {ε β γ : Type} {x : Except ε β} {g : β → Except ε γ} {z : γ} (h : x >>= g = .ok z) :
    ∃ y, x = .ok y ∧ g y = .ok z := by
  cases x with
  | error e => cases h
  | ok y => exact ⟨y, rfl, h⟩

theorem error_of_bind {ε β γ : Type} {x : Except ε β} {g : β → Except ε γ} {e : ε} (h : x >>= g = .error e) :
    x = .error e ∨ ∃ y, x = .ok y ∧ g y = .error e := by
  cases x with
  | error e' =>
    cases h
    exact .inl rfl
  | ok y => exact .inr ⟨y, rfl, h⟩

/-- the sizes after a call: the ceiling and the slots' size stay, and the array there is fits a `Vec` -/
structure SameLimits (b b' : ReorderBuffer α) : Prop where
  maxCap : b'.maxCapacity = b.maxCapacity
  bytes : b'.slotBytes = b.slotBytes
  fits : (b.mask + 1) * b.slotBytes ≤ isizeMax → (b'.mask + 1) * b'.slotBytes ≤ isizeMax

theorem SameLimits.refl (b : ReorderBuffer α) : SameLimits b b := ⟨rfl, rfl, id⟩

theorem SameLimits.trans {b b' b'' : ReorderBuffer α} (h : SameLimits b b') (h' : SameLimits b' b'') : SameLimits b b'' :=
  ⟨h'.maxCap.trans h.maxCap, h'.bytes.trans h.bytes, fun hfit => h'.fits (h.fits hfit)⟩

section Limits

variable {b b' : ReorderBuffer α} {seq : ℕ}

theorem slotAt_error {i : ℕ} {e : Fault} (h : b.slotAt i = .error e) : e = .outOfBounds := by
  unfold ReorderBuffer.slotAt at h
  split at h
  · cases h
  · cases h; rfl

theorem ensureSlots_limits (h : b.ensureSlots = .ok b') : SameLimits b b' := by
  unfold ReorderBuffer.ensureSlots at h
  split_ifs at h with hnil
  · obtain ⟨slots, -, hb'⟩ := ok_of_bind h
    cases hb'
    exact ⟨rfl, rfl, id⟩
  · cases h
    exact .refl b

theorem ensureSlots_mask (h : b.ensureSlots = .ok b') : b'.mask = b.mask := by
  unfold ReorderBuffer.ensureSlots at h
  split_ifs at h with hnil
  · obtain ⟨slots, -, hb'⟩ := ok_of_bind h
    cases hb'
    rfl
  · cases h
    rfl

theorem ensureSlots_slots (hnil : b.slots = []) (h : b.ensureSlots = .ok b') :
    b'.slots = List.replicate (b.mask + 1) emptySlot := by
  rw [ReorderBuffer.ensureSlots, hnil, List.isEmpty_nil, if_pos rfl] at h
  obtain ⟨slots, hslots, hb'⟩ := ok_of_bind h
  unfold ReorderBuffer.collectSlots at hslots
  split_ifs at hslots with hfit
  cases hslots
  cases hb'
  rfl

theorem ensureSlots_panics {e : Fault} (h : b.ensureSlots = .error e) : isizeMax < (b.mask + 1) * b.slotBytes := by
  unfold ReorderBuffer.ensureSlots at h
  split_ifs at h with hnil
  obtain h | ⟨slots, -, h⟩ := error_of_bind h
  · unfold ReorderBuffer.collectSlots at h
    split_ifs at h with hfit
    exact Nat.lt_of_not_le hfit
  · cases h

theorem double_limits (h : b.double = .ok b') : SameLimits b b' := by
  by_cases hfit : (b.mask + 1) * 2 * b.slotBytes ≤ isizeMax
  · rw [double_eq hfit] at h
    cases h
    exact ⟨rfl, rfl, fun _ => by rw [double_mask]; exact hfit⟩
  · rw [double_over hfit] at h
    cases h

theorem growFor_limits {free : Bool} (fuel : ℕ) :
    ∀ b : ReorderBuffer α, b.growFor fuel seq = .ok (free, b') → SameLimits b b' := by
  induction fuel with
  | zero => intro b h; cases h
  | succ fuel ih =>
    intro b h
    unfold ReorderBuffer.growFor at h
    split_ifs at h with hmax
    · obtain ⟨slot, -, h⟩ := ok_of_bind h
      cases h
      exact .refl _
    · obtain ⟨c, hc, h⟩ := ok_of_bind h
      obtain ⟨slot, -, h⟩ := ok_of_bind h
      split_ifs at h with hfree
      · cases h
        exact double_limits hc
      · exact (double_limits hc).trans (ih c h)

/-- the end of `claimSlot`: an occupied slot loses its item -/
def ReorderBuffer.overwrite (b : ReorderBuffer α) (idx : ℕ) : Except Fault (ReorderBuffer α × ℕ) := do
  let slot ← b.slotAt idx
  if slot.tag = UNOCCUPIED then .ok (b, idx)
  else do
    let b ← b.evict idx slot
    .ok (b, idx)

theorem claimSlot_free {slot : Slot α} (hslot : b.slotAt (seq &&& b.mask) = .ok slot) (hfree : slot.tag = UNOCCUPIED) :
    b.claimSlot seq = .ok (b, seq &&& b.mask) := by
  simp [ReorderBuffer.claimSlot, hslot, bind, Except.bind, hfree]

theorem claimSlot_taken {slot : Slot α} (hslot : b.slotAt (seq &&& b.mask) = .ok slot) (htaken : slot.tag ≠ UNOCCUPIED) :
    b.claimSlot seq =
      if slot.tag = wrappingAdd seq 1 then b.overwrite (seq &&& b.mask)
      else b.growFor growBound seq >>= fun r => r.2.overwrite (if r.1 then seq &&& r.2.mask else seq &&& b.mask) := by
  by_cases hdup : slot.tag = wrappingAdd seq 1
  · rw [hdup] at htaken
    simp [ReorderBuffer.claimSlot, ReorderBuffer.overwrite, hslot, bind, Except.bind, hdup, htaken]
  · cases hg : b.growFor growBound seq <;>
      simp [ReorderBuffer.claimSlot, ReorderBuffer.overwrite, hslot, bind, Except.bind, hdup, htaken, hg]

theorem overwrite_limits {i idx : ℕ} (h : b.overwrite i = .ok (b', idx)) : SameLimits b b' := by
  obtain ⟨slot, -, h⟩ := ok_of_bind h
  split_ifs at h with hfree
  · cases h
    exact .refl b
  · obtain ⟨c, hev, h⟩ := ok_of_bind h
    cases h
    unfold ReorderBuffer.evict at hev
    split at hev <;> cases hev
    exact ⟨rfl, rfl, id⟩

theorem overwrite_ne_overflow (i : ℕ) : b.overwrite i ≠ .error .capacityOverflow := by
  intro h
  obtain h | ⟨slot, -, h⟩ := error_of_bind h
  · cases slotAt_error h
  split_ifs at h with hfree
  obtain h | ⟨c, -, h⟩ := error_of_bind h
  · unfold ReorderBuffer.evict at h
    split at h <;> cases h
  · cases h

theorem claimSlot_limits {idx : ℕ} (h : b.claimSlot seq = .ok (b', idx)) : SameLimits b b' := by
  obtain ⟨slot, hslot, -⟩ := ok_of_bind h
  by_cases hfree : slot.tag = UNOCCUPIED
  · rw [claimSlot_free hslot hfree] at h
    cases h
    exact .refl b
  · rw [claimSlot_taken hslot hfree] at h
    split_ifs at h with hdup
    · exact overwrite_limits h
    · obtain ⟨⟨free, c⟩, hg, h⟩ := ok_of_bind h
      exact (growFor_limits _ b hg).trans (overwrite_limits h)

/-- settling the slot panics only in the growth -/
theorem claimSlot_panics (h : b.claimSlot seq = .error .capacityOverflow) :
    b.growFor growBound seq = .error .capacityOverflow ∧
      ∃ slot, b.slots[seq &&& b.mask]? = some slot ∧ slot.tag ≠ UNOCCUPIED := by
  obtain hbad | ⟨slot, hslot, -⟩ := error_of_bind h
  · cases slotAt_error hbad
  by_cases hfree : slot.tag = UNOCCUPIED
  · rw [claimSlot_free hslot hfree] at h
    cases h
  · rw [claimSlot_taken hslot hfree] at h
    split_ifs at h with hdup
    · exact absurd h (overwrite_ne_overflow _)
    · obtain hg | ⟨r, -, h⟩ := error_of_bind h
      · exact ⟨hg, slot, slotAt_ok.1 hslot, hfree⟩
      · exact absurd h (overwrite_ne_overflow _)

theorem flushLoop_limits (fuel : ℕ) :
    ∀ (b : ReorderBuffer α) (out : List α), b.flushLoop fuel = .ok (b', out) → SameLimits b b' := by
  induction fuel with
  | zero => intro b out h; cases h
  | succ fuel ih =>
    intro b out h
    obtain ⟨slot, -, h⟩ := ok_of_bind h
    split_ifs at h with htag
    · cases h
      exact .refl _
    · split at h
      · cases h
      · obtain ⟨⟨c, rest⟩, hc, h⟩ := ok_of_bind h
        cases h
        have hrest := ih _ rest hc
        exact ⟨hrest.maxCap, hrest.bytes, hrest.fits⟩

theorem flushLoop_ne_overflow (fuel : ℕ) : ∀ b : ReorderBuffer α, b.flushLoop fuel ≠ .error .capacityOverflow := by
  induction fuel with
  | zero => intro b h; cases h
  | succ fuel ih =>
    intro b h
    obtain h | ⟨slot, -, h⟩ := error_of_bind h
    · cases slotAt_error h
    split_ifs at h with htag
    split at h
    · cases h
    · obtain h | ⟨r, -, h⟩ := error_of_bind h
      · exact ih _ h
      · cases h

theorem insertInto_limits {item : α} {out : List α} (h : b.insertInto seq item = .ok (b', out)) : SameLimits b b' := by
  unfold ReorderBuffer.insertInto at h
  split_ifs at h with hfast
  · cases h
    exact ⟨rfl, rfl, id⟩
  · obtain ⟨c, hc, h⟩ := ok_of_bind h
    obtain ⟨⟨c', idx⟩, hc', h⟩ := ok_of_bind h
    have hclaimed : SameLimits b c' := (ensureSlots_limits hc).trans (claimSlot_limits hc')
    have hflushed := flushLoop_limits _ _ _ ((if_neg (Nat.succ_ne_zero _)).symm.trans h)
    exact hclaimed.trans ⟨hflushed.maxCap, hflushed.bytes, hflushed.fits⟩

/-- a call that finds its slot free, or its own seq there, needs no larger array -/
theorem insertInto_ne_overflow {item : α} {slot : Slot α} (hne : b.slots ≠ []) (hslot : b.slots[seq &&& b.mask]? = some slot)
    (hown : slot.tag = UNOCCUPIED ∨ slot.tag = wrappingAdd seq 1) : b.insertInto seq item ≠ .error .capacityOverflow := by
  intro hpan
  unfold ReorderBuffer.insertInto at hpan
  split_ifs at hpan with hfast
  rw [ReorderBuffer.ensureSlots, if_neg (by simpa using hne)] at hpan
  obtain hclaim | ⟨r, -, hpan⟩ := error_of_bind (x := b.claimSlot seq) hpan
  · by_cases hfree : slot.tag = UNOCCUPIED
    · rw [claimSlot_free (slotAt_ok.2 hslot) hfree] at hclaim
      cases hclaim
    · rw [claimSlot_taken (slotAt_ok.2 hslot) hfree, if_pos (hown.resolve_left hfree)] at hclaim
      exact overwrite_ne_overflow _ hclaim
  · exact flushLoop_ne_overflow _ _ ((if_neg (Nat.succ_ne_zero _)).symm.trans hpan)

/-- a call for which no array is large enough: not the first one, or none of the doubled ones, up to a capacity at which the
seq aliases a held one -/
def Outgrows (b : ReorderBuffer α) (h : List (ℕ × α)) (seq : ℕ) : Prop :=
  isizeMax < (b.mask + 1) * b.slotBytes ∨
    ∃ i, 2 ^ i * 2 ≤ b.maxCapacity ∧ isizeMax < 2 ^ i * 2 * b.slotBytes ∧ ∃ p ∈ h, p.1 % 2 ^ i = seq % 2 ^ i

/-- **A call panics only when the slots outgrow a `Vec`** -/
theorem insertInto_panics {h : List (ℕ × α)} {item : α} (hcore : b.mask + 1 < b.maxCapacity → Core b h)
    (hpan : b.insertInto seq item = .error .capacityOverflow) : Outgrows b h seq := by
  unfold ReorderBuffer.insertInto at hpan
  split_ifs at hpan with hfast
  obtain hpan | ⟨c, hc, hpan⟩ := error_of_bind hpan
  · exact .inl (ensureSlots_panics hpan)
  obtain hpan | ⟨⟨c', idx⟩, -, hpan⟩ := error_of_bind hpan
  · obtain ⟨hgrow, slot, hslot, hocc⟩ := claimSlot_panics hpan
    right
    by_cases hlt : b.mask + 1 < b.maxCapacity
    · obtain ⟨c1, hc1, hcore1, hne1, -, hsame1, -⟩ :=
        ensureSlots_core (hcore hlt) fun hpan => by rw [hc] at hpan; cases hpan
      rw [hc] at hc1
      cases hc1
      obtain ⟨i, hi, hover, p, hp, hmod⟩ := growFor_panics seq growBound c hcore1 hne1 hgrow ⟨slot, hslot, hocc⟩
      exact ⟨i, hsame1.maxCap ▸ hi, hsame1.bytes ▸ hover, p, hp, hmod⟩
    · -- at the ceiling the growth only looks
      have hmax : c.maxCapacity ≤ c.mask + 1 := by
        rw [(ensureSlots_limits hc).maxCap, ensureSlots_mask hc]
        omega
      rw [growBound, growFor_ceiling hmax hslot] at hgrow
      cases hgrow
  · exact absurd ((if_neg (Nat.succ_ne_zero _)).symm.trans hpan) (flushLoop_ne_overflow _ _)

/-- such a call needs a ceiling that a `Vec` cannot hold -/
theorem Outgrows.over {h : List (ℕ × α)} (hout : Outgrows b h seq) (hle : b.mask + 1 ≤ b.maxCapacity) :
    isizeMax < b.maxCapacity * b.slotBytes := by
  obtain hfirst | ⟨i, hi, hover, -⟩ := hout
  · exact hfirst.trans_le (Nat.mul_le_mul_right _ hle)
  · exact hover.trans_le (Nat.mul_le_mul_right _ hi)

end Limits

/-! ## Whole runs -/

/-- after the calls `ops`: `em` was emitted, `h` is held, `ev` was dropped, and nothing else happened to any pair -/
structure Held (b : ReorderBuffer α) (out : List α) (ops em h ev : List (ℕ × α)) : Prop where
  core : Core b h
  out : out = em.map Prod.snd
  order : em.map Prod.fst = List.range' 0 em.length
  next : b.nextExpected = em.length
  ahead : ∀ p ∈ h, b.nextExpected < p.1
  split : ops.Perm (em ++ h ++ ev)
  dropped : b.dropped = ev.length

/-- one more call: its pair and the held ones are split again, the emitted and dropped ones stay -/
theorem split_snoc {ops em h ev em' h' ev' : List (ℕ × α)} {o : ℕ × α} (hsplit : ops.Perm (em ++ h ++ ev))
    (hperm : (o :: h).Perm (em' ++ h' ++ ev')) : (ops ++ [o]).Perm (em ++ em' ++ h' ++ (ev ++ ev')) := by
  calc (ops ++ [o]).Perm (o :: ops) := List.perm_append_singleton _ _
    _ |>.Perm (o :: (em ++ h ++ ev)) := hsplit.cons _
    _ |>.Perm (em ++ ev ++ (o :: h)) := by
      rw [List.append_assoc em h ev]
      refine (List.perm_middle.trans ?_).symm
      rw [List.append_assoc]
      exact ((List.perm_append_comm).append_left em).cons _
    _ |>.Perm (em ++ ev ++ (em' ++ h' ++ ev')) := hperm.append_left _
    _ |>.Perm (em ++ em' ++ h' ++ (ev ++ ev')) := by
      simp only [List.append_assoc]
      refine List.Perm.append_left em ?_
      rw [← List.append_assoc em', ← List.append_assoc em', ← List.append_assoc ev]
      exact (List.perm_append_comm.append_right ev').trans (by rw [List.append_assoc])

namespace Held

variable {b : ReorderBuffer α} {out : List α} {ops em h ev : List (ℕ × α)}

theorem length_eq (hh : Held b out ops em h ev) : ops.length = em.length + h.length + ev.length := by
  rw [hh.split.length_eq, List.length_append, List.length_append]

/-- every seq below the cursor has been inserted and emitted -/
theorem mem_of_lt (hh : Held b out ops em h ev) {s : ℕ} (hs : s < b.nextExpected) : s ∈ ops.map Prod.fst := by
  have hem : s ∈ em.map Prod.fst := by
    rw [hh.order, List.mem_range'_1]; have := hh.next; omega
  rw [(hh.split.map Prod.fst).mem_iff, List.append_assoc, List.map_append]
  exact List.mem_append_left _ hem

/-- **One call of a run** keeps the split, and drops at most pairs that alias the arrival at the ceiling -/
theorem step (hh : Held b out ops em h ev) (seq : ℕ) (item : α) (hs : seq < maxVal) (hnew : seq ∉ ops.map Prod.fst)
    (hroom : ops.length + 1 < maxVal) (hgood : ¬ Misplaces b seq)
    (hno : Reorder.step (b, out) (seq, item) ≠ .error .capacityOverflow) :
    ∃ b' out' em' h' ev', Reorder.step (b, out) (seq, item) = .ok (b', out ++ out') ∧
      Held b' (out ++ out') (ops ++ [(seq, item)]) (em ++ em') h' (ev ++ ev') ∧ b'.maxCapacity = b.maxCapacity ∧
      ∀ e ∈ ev', e ∈ h ∧ e.1 % b.maxCapacity = seq % b.maxCapacity := by
  have hlen := hh.length_eq
  have hnext := hh.next
  have hge : b.nextExpected ≤ seq := by
    by_contra hlt
    exact hnew (hh.mem_of_lt (by omega))
  have hnewh : ∀ p ∈ h, p.1 ≠ seq := by
    rintro p hp rfl
    refine hnew (List.mem_map_of_mem (hh.split.mem_iff.2 ?_))
    exact List.mem_append_left _ (List.mem_append_right _ hp)
  obtain ⟨b', em', h', ev', hins, hb', hperm, hfst, hnx, hcap, hdrop, hev, hah⟩ :=
    insertInto_spec hh.core item hs hge hnewh hh.ahead (by omega) hgood fun hpan => hno (step_of_insertInto hpan)
  refine ⟨b', em'.map Prod.snd, em', h', ev', ?_, ⟨hb', ?_, ?_, ?_, hah, ?_, ?_⟩, hcap, hev⟩
  · simp [Reorder.step, hins, bind, Except.bind]
  · rw [hh.out, List.map_append]
  · rw [List.map_append, hh.order, hfst, List.length_append, hnext]
    simpa using List.range'_append_1 (s := 0) (m := em.length) (n := em'.length)
  · rw [hnx, hnext, List.length_append]
  · exact split_snoc hh.split hperm
  · rw [hdrop, hh.dropped, List.length_append]

end Held

/-- no call of the run `ops` on `b0` meets `Misplaces` -/
def Settled (b0 : ReorderBuffer α) (ops : List (ℕ × α)) : Prop :=
  ∀ i < ops.length, ∀ o ∈ ops[i]?, ∀ st ∈ (run b0 (ops.take i)).toOption, ¬ Misplaces st.1 o.1

instance (b0 : ReorderBuffer α) (ops : List (ℕ × α)) : Decidable (Settled b0 ops) :=
  inferInstanceAs (Decidable (∀ i < ops.length, ∀ o ∈ ops[i]?, ∀ st ∈ (run b0 (ops.take i)).toOption, ¬ Misplaces st.1 o.1))

theorem Settled.of_append {b0 : ReorderBuffer α} {ops rest : List (ℕ × α)} (h : Settled b0 (ops ++ rest)) :
    Settled b0 ops := by
  intro i hi o ho st hst
  refine h i (by simp; omega) o (by rwa [List.getElem?_append_left hi]) st ?_
  rwa [List.take_append_of_le_length hi.le]

theorem Settled.last {b0 : ReorderBuffer α} {ops : List (ℕ × α)} {o : ℕ × α} (h : Settled b0 (ops ++ [o]))
    {st : ReorderBuffer α × List α} (hst : run b0 ops = .ok st) : ¬ Misplaces st.1 o.1 :=
  h ops.length (by simp) o (by simp) st (by simp [hst, Except.toOption])

/-- a buffer built for at most 2^63 slots starts empty -/
theorem withMaxInner_held (size : SlotSize) (initial : ℕ) (hi : initial ≤ 2 ^ 63) (mx : Option ℕ) :
    Held (withMaxInner size initial mx : ReorderBuffer α) [] [] [] [] [] := by
  obtain ⟨k, hk63, hk, -⟩ := nextPowerOfTwo_spec (n := max initial 1) (by omega)
  have hpos : 1 ≤ 2 ^ k := Nat.one_le_two_pow
  have hword : 2 ^ k < word := Nat.pow_lt_pow_right (by norm_num) (by omega)
  have hmask : wrappingSub (2 ^ k) 1 + 1 = 2 ^ k := by
    obtain ⟨m, hm⟩ : ∃ m, 2 ^ k = m + 1 := ⟨2 ^ k - 1, by omega⟩
    rw [hm, wrappingSub_succ (by omega)]
  have hmax : ∃ j, j ≤ 63 ∧ (withMaxInner size initial mx : ReorderBuffer α).maxCapacity = 2 ^ j ∧ 2 ^ k ≤ 2 ^ j := by
    cases mx with
    | none => exact ⟨k, hk63, hk, le_refl _⟩
    | some m =>
      show ∃ j, j ≤ 63 ∧ max (nextPowerOfTwo (max m 1)) (nextPowerOfTwo (max initial 1)) = 2 ^ j ∧ _
      rw [hk]
      obtain ⟨j, hj63, hj⟩ := nextPowerOfTwo_pow_or_zero (max m 1)
      rcases hj with hj | hj
      · rcases le_total (2 ^ j) (2 ^ k) with h | h
        · exact ⟨k, hk63, by rw [hj, max_eq_right h], le_refl _⟩
        · exact ⟨j, hj63, by rw [hj, max_eq_left h], h⟩
      · exact ⟨k, hk63, by rw [hj, max_eq_right (Nat.zero_le _)], le_refl _⟩
  obtain ⟨j, hj63, hj, hkj⟩ := hmax
  have hm : (withMaxInner size initial mx : ReorderBuffer α).mask + 1 = 2 ^ k := by
    show wrappingSub (nextPowerOfTwo (max initial 1)) 1 + 1 = _
    rw [hk, hmask]
  refine ⟨⟨⟨k, hk63, hm⟩, ⟨j, hj63, hj⟩, by rw [hm, hj]; exact hkj, Or.inl rfl, ?_, ?_, by simp, rfl⟩, rfl, rfl, rfl,
    by simp, by simp, rfl⟩
  · intro i s k' hs
    simp [withMaxInner] at hs
  · simp [withMaxInner, live]

theorem withMaxInner_mask (size : SlotSize) {initial : ℕ} (hi : initial ≤ 2 ^ 63) (mx : Option ℕ) :
    (withMaxInner size initial mx : ReorderBuffer α).mask + 1 = nextPowerOfTwo (max initial 1) := by
  obtain ⟨k, hk63, hk, -⟩ := nextPowerOfTwo_spec (n := max initial 1) (by omega)
  show wrappingSub (nextPowerOfTwo (max initial 1)) 1 + 1 = _
  obtain ⟨m, hm⟩ : ∃ m, 2 ^ k = m + 1 := ⟨2 ^ k - 1, by have := Nat.one_le_two_pow (n := k); omega⟩
  have hword : 2 ^ k < word := Nat.pow_lt_pow_right (by norm_num) (by omega)
  rw [hk, hm, wrappingSub_succ (by omega)]

/-- a run that does not panic has not panicked before, and its last call does not -/
theorem run_init {b0 : ReorderBuffer α} {ops : List (ℕ × α)} {o : ℕ × α} {e : Fault} (hno : run b0 (ops ++ [o]) ≠ .error e) :
    run b0 ops ≠ .error e ∧ ∀ st, run b0 ops = .ok st → Reorder.step st o ≠ .error e := by
  rw [run_snoc] at hno
  refine ⟨fun h => hno (by rw [h]; rfl), fun st hst h => hno ?_⟩
  rw [hst]
  exact h

/-- the calls of a run up to the one that fails -/
theorem run_panics {b0 : ReorderBuffer α} {ops : List (ℕ × α)} {e : Fault} (hpan : run b0 ops = .error e) :
    ∃ pre o post st, ops = pre ++ o :: post ∧ run b0 pre = .ok st ∧ st.1.insertInto o.1 o.2 = .error e := by
  induction ops using List.reverseRecOn with
  | nil => cases hpan
  | append_singleton ops o ih =>
    rw [run_snoc] at hpan
    obtain hpan | ⟨st, hst, hpan⟩ := error_of_bind hpan
    · obtain ⟨pre, o', post, st, rfl, hst, hins⟩ := ih hpan
      exact ⟨pre, o', post ++ [o], st, by simp, hst, hins⟩
    · obtain hins | ⟨r, -, hr⟩ := error_of_bind hpan
      · exact ⟨ops, o, [], st, rfl, hst, hins⟩
      · cases hr

theorem run_limits {b0 b : ReorderBuffer α} {ops : List (ℕ × α)} {out : List α} (hrun : run b0 ops = .ok (b, out)) :
    SameLimits b0 b := by
  induction ops using List.reverseRecOn generalizing b out with
  | nil =>
    cases hrun
    exact .refl b0
  | append_singleton ops o ih =>
    rw [run_snoc] at hrun
    obtain ⟨⟨c, out'⟩, hc, hrun⟩ := ok_of_bind hrun
    obtain ⟨⟨b', em⟩, hins, heq⟩ := ok_of_bind hrun
    cases heq
    exact (ih hc).trans (insertInto_limits hins)

/-- a run panics only under a ceiling that a `Vec` cannot hold -/
theorem run_over {b0 : ReorderBuffer α} {ops : List (ℕ × α)} (hpan : run b0 ops = .error .capacityOverflow)
    (hinv : ∀ pre o post st, ops = pre ++ o :: post → run b0 pre = .ok st →
      st.1.mask + 1 ≤ st.1.maxCapacity ∧ ∃ h, st.1.mask + 1 < st.1.maxCapacity → Core st.1 h) :
    isizeMax < b0.maxCapacity * b0.slotBytes := by
  obtain ⟨pre, o, post, st, hops, hst, hins⟩ := run_panics hpan
  obtain ⟨hle, h, hcore⟩ := hinv pre o post st hops hst
  have hlim := run_limits (show run b0 pre = .ok (st.1, st.2) from hst)
  rw [← hlim.maxCap, ← hlim.bytes]
  exact (insertInto_panics hcore hins).over hle

/-- **A run** of fewer than `u64::MAX` distinct seqs that misplaces no arrival and does not panic keeps the split -/
theorem run_held {b0 : ReorderBuffer α} (h0 : Held b0 [] [] [] [] []) (ops : List (ℕ × α))
    (hnd : (ops.map Prod.fst).Nodup) (hsmall : ∀ o ∈ ops, o.1 < maxVal) (hlen : ops.length < maxVal)
    (hgood : Settled b0 ops) (hno : run b0 ops ≠ .error .capacityOverflow) :
    ∃ b out em h ev, run b0 ops = .ok (b, out) ∧ Held b out ops em h ev ∧ b.maxCapacity = b0.maxCapacity := by
  induction ops using List.reverseRecOn with
  | nil => exact ⟨b0, [], [], [], [], rfl, h0, rfl⟩
  | append_singleton ops o ih =>
    rw [List.map_append, List.nodup_append] at hnd
    rw [List.length_append] at hlen
    obtain ⟨b, out, em, h, ev, hrun, hh, hcap⟩ := ih hnd.1 (fun o ho => hsmall o (List.mem_append_left _ ho))
      (by simp at hlen; omega) hgood.of_append (run_init hno).1
    obtain ⟨b', out', em', h', ev', hstep, hh', hcap', -⟩ := hh.step o.1 o.2
      (hsmall o (List.mem_append_right _ List.mem_cons_self))
      (fun hin => hnd.2.2 o.1 hin o.1 (by simp) rfl) (by simpa using hlen) (hgood.last hrun) ((run_init hno).2 _ hrun)
    exact ⟨b', out ++ out', em ++ em', h', ev ++ ev', by rw [run_snoc, hrun]; exact hstep, hh', hcap'.trans hcap⟩

/-! ## The end of a run -/

theorem entry_injective : Function.Injective (entry : ℕ × α → Slot α) := by
  rintro ⟨s, x⟩ ⟨t, y⟩ h
  simp only [entry, Slot.mk.injEq, Nat.add_right_cancel_iff, Option.some.injEq] at h
  exact Prod.ext h.1 h.2

theorem live_eq_filter (t : List (Slot α)) : live seqOf t = t.filter fun s => s.tag ≠ UNOCCUPIED := by
  refine List.filter_congr fun s _ => ?_
  by_cases h : s.tag = UNOCCUPIED <;> simp [seqOf, h]

/-- `flushRemaining` hands over exactly the pairs in the occupied slots, in increasing seq -/
theorem flushRemaining_of_live {b : ReorderBuffer α} {h : List (ℕ × α)} (hlive : (live seqOf b.slots).Perm (h.map entry))
    (hdist : (h.map Prod.fst).Nodup) :
    ∃ (b' : ReorderBuffer α) (l : List (ℕ × α)), b.flushRemaining = .ok (b', l.map Prod.snd) ∧ l.Perm h ∧
      (l.map Prod.fst).Pairwise (· < ·) ∧ b'.dropped = b.dropped := by
  set sorted := (b.slots.filter fun s => s.tag ≠ UNOCCUPIED).insertionSort fun s t => s.tag ≤ t.tag with hsorted
  have hperm : sorted.Perm (h.map entry) := by
    refine (List.perm_insertionSort _ _).trans ?_
    rw [← live_eq_filter]; exact hlive
  obtain ⟨l, hl⟩ : sorted ∈ Set.range (List.map (entry : ℕ × α → Slot α)) := by
    rw [Set.range_list_map]
    intro s hs
    obtain ⟨p, -, rfl⟩ := List.mem_map.1 (hperm.mem_iff.1 hs)
    exact ⟨p, rfl⟩
  have hlh : l.Perm h := (List.map_perm_map_iff entry_injective).1 (hl ▸ hperm)
  have hle : (l.map Prod.fst).Pairwise (· ≤ ·) := by
    have hpw := List.pairwise_insertionSort (fun s t : Slot α => s.tag ≤ t.tag)
      (b.slots.filter fun s => s.tag ≠ UNOCCUPIED)
    rw [← hsorted, ← hl, List.pairwise_map] at hpw
    rw [List.pairwise_map]
    exact hpw.imp fun hpq => Nat.le_of_succ_le_succ hpq
  have hnd : (l.map Prod.fst).Nodup := ((hlh.map Prod.fst).nodup_iff).2 hdist
  have hread : (l.map entry).mapM (fun s : Slot α => match s.item with
      | none => Except.error Fault.uninitRead
      | some x => .ok x) = .ok (l.map Prod.snd) := by
    clear hl hlh hle hnd
    induction l with
    | nil => rfl
    | cons p l ih =>
      rw [List.map_cons, List.mapM_cons, ih]; rfl
  have hrun : b.flushRemaining = .ok ({ b with
      slots := List.replicate (b.slots.filter fun s => s.tag ≠ UNOCCUPIED).length emptySlot ++
        b.slots.filter fun s => s.tag = UNOCCUPIED
      len := 0 }, l.map Prod.snd) := by
    simp only [ReorderBuffer.flushRemaining]
    rw [← hsorted, ← hl, hread]; rfl
  exact ⟨_, l, hrun, hlh, (List.pairwise_and_iff.2 ⟨hle, hnd⟩).imp fun h => lt_of_le_of_ne h.1 h.2, rfl⟩

/-- the representation a run must keep: the array's size, the count, each item in the slot of its own seq, every insert
accounted for, and the output followed by `flushRemaining` strictly increasing in seq -/
structure Rep (b : ReorderBuffer α) (out : List α) (ops : List (ℕ × α)) : Prop where
  size : b.slots = [] ∨ (b.slots.length = b.mask + 1 ∧ (∃ k, b.mask + 1 = 2 ^ k) ∧ b.mask + 1 ≤ b.maxCapacity)
  len : b.len = (b.slots.filter fun s => s.tag ≠ UNOCCUPIED).length
  own : ∀ i s, b.slots[i]? = some s → s.tag ≠ UNOCCUPIED →
    ∃ o ∈ ops, s = ⟨o.1 + 1, some o.2⟩ ∧ i = o.1 &&& b.mask ∧ o.1 ≠ b.nextExpected
  account : out.length + b.len + b.dropped = ops.length
  increasing : ∃ (b' : ReorderBuffer α) (rest : List α) (l : List (ℕ × α)),
    b.flushRemaining = .ok (b', rest) ∧ out ++ rest = l.map Prod.snd ∧ l ⊆ ops ∧
    (l.map Prod.fst).Pairwise (· < ·)

theorem Held.rep {b : ReorderBuffer α} {out : List α} {ops em h ev : List (ℕ × α)} (hh : Held b out ops em h ev) :
    Rep b out ops := by
  have hlen := hh.length_eq
  have hsub : ∀ p, p ∈ em ∨ p ∈ h → p ∈ ops := fun p hp =>
    hh.split.mem_iff.2 (List.mem_append_left _ (List.mem_append.2 hp))
  refine ⟨?_, ?_, fun i s hs ht => ?_, ?_, ?_⟩
  · obtain ⟨k, -, hk⟩ := hh.core.pow
    exact hh.core.size.imp_right fun hsz => ⟨hsz, ⟨k, hk⟩, hh.core.le⟩
  · rw [← live_eq_filter, hh.core.live.length_eq, List.length_map, hh.core.len]
  · obtain ⟨p, hp, rfl, hi⟩ := hh.core.occupied hs ht
    have hne : b.slots ≠ [] := by rintro hnil; simp [hnil] at hs
    refine ⟨p, hsub p (Or.inr hp), rfl, ?_, (hh.ahead p hp).ne'⟩
    rw [hh.core.and_mask, ← hh.core.length_eq hne, hi]
  · rw [hh.out, List.length_map, hh.core.len, hh.dropped, hlen]
  · obtain ⟨b', l, hfl, hperm, hpw, -⟩ := flushRemaining_of_live hh.core.live hh.core.nodup
    refine ⟨b', l.map Prod.snd, em ++ l, hfl, by rw [hh.out, List.map_append], fun p hp => hsub p ?_, ?_⟩
    · exact (List.mem_append.1 hp).imp_right hperm.mem_iff.1
    · -- emitted seqs are below the cursor, held ones above it
      rw [List.map_append, List.pairwise_append]
      refine ⟨by rw [hh.order]; exact List.pairwise_lt_range', hpw, fun s hs t ht => ?_⟩
      rw [hh.order, List.mem_range'_1] at hs
      obtain ⟨q, hq, rfl⟩ := List.mem_map.1 ht
      have := hh.ahead q (hperm.mem_iff.1 hq)
      have := hh.next
      omega

/-! ## A buffer that cannot materialise its array -/

/-- with a first array that a `Vec` cannot hold only the fast path can be served -/
theorem run_oversized (b0 : ReorderBuffer α) (hb0 : b0.slots = [] ∧ b0.len = 0 ∧ b0.nextExpected = 0 ∧ b0.dropped = 0)
    (hover : isizeMax < (b0.mask + 1) * b0.slotBytes) (ops : List (ℕ × α)) (hlen : ops.length < maxVal) :
    run b0 ops = .error .capacityOverflow ∨ (run b0 ops = .ok ({ b0 with nextExpected := ops.length }, ops.map Prod.snd) ∧
      ops.map Prod.fst = List.range' 0 ops.length) := by
  induction ops using List.reverseRecOn with
  | nil =>
    obtain ⟨slots, next, len, mask, cap, dropped, bytes⟩ := b0
    obtain ⟨-, -, rfl, -⟩ := hb0
    exact Or.inr ⟨rfl, rfl⟩
  | append_singleton ops o ih =>
    rw [List.length_append, List.length_singleton] at hlen
    rcases ih (by omega) with herr | ⟨hok, hord⟩
    · exact Or.inl (by rw [run_snoc, herr]; rfl)
    · rw [run_snoc, hok]
      by_cases hfast : o.1 = ops.length
      · right
        refine ⟨?_, ?_⟩
        · simp [Except.bind, Reorder.step, ReorderBuffer.insertInto, hfast, hb0.2.1, bind,
            wrappingAdd_of_lt (maxVal_lt (s := ops.length) (by omega))]
        · rw [List.map_append, hord, List.length_append, List.length_singleton]
          simpa [hfast] using List.range'_append_1 (s := 0) (m := ops.length) (n := 1)
      · left
        simp [Except.bind, Reorder.step, ReorderBuffer.insertInto, ReorderBuffer.ensureSlots, ReorderBuffer.collectSlots,
          hfast, hb0.1, bind, Nat.not_le_of_lt hover]

/-- above 2^63 slots the capacity rounds to 0, and the mask is `u64::MAX` -/
theorem withMaxInner_oversized (size : SlotSize) {initial : ℕ} (hi : 2 ^ 63 < initial) (hw : initial < word) (mx : Option ℕ) :
    (withMaxInner size initial mx : ReorderBuffer α).mask = maxVal := by
  show wrappingSub (nextPowerOfTwo (max initial 1)) 1 = _
  rw [nextPowerOfTwo_overflow (by omega) (by omega)]
  decide

theorem withMaxInner_over (size : SlotSize) {initial : ℕ} (hi : 2 ^ 63 < initial) (hw : initial < word) (mx : Option ℕ) :
    isizeMax < ((withMaxInner size initial mx : ReorderBuffer α).mask + 1) * size.bytes := by
  rw [withMaxInner_oversized size hi hw mx]
  calc isizeMax < (maxVal + 1) * 8 := by decide
    _ ≤ (maxVal + 1) * size.bytes := Nat.mul_le_mul_left _ size.tag_le

/-! ## Results -/

/-- **The run invariant, where no arrival is misplaced.** For every initial and maximal capacity and every run of fewer
than `u64::MAX` calls with distinct seqs below `u64::MAX` none of which meets `Misplaces`, every prefix of the run ends in
a state with the representation `Rep`. The one other outcome is the panic of a slot array of more than `isize::MAX` bytes,
which takes an initial capacity above 2^63 or a ceiling too large for a `Vec`. -/
theorem run_rep (size : SlotSize) (initial : ℕ) (hi : initial < word) (mx : Option ℕ) (ops : List (ℕ × α))
    (hnd : (ops.map Prod.fst).Nodup) (hsmall : ∀ o ∈ ops, o.1 < maxVal) (hlen : ops.length < maxVal)
    (hgood : Settled (withMaxInner size initial mx) ops) (pre : List (ℕ × α)) (hpre : pre <+: ops) :
    (∃ b out, run (withMaxInner size initial mx) pre = .ok (b, out) ∧ Rep b out pre) ∨
      ((2 ^ 63 < initial ∨ isizeMax < (withMaxInner size initial mx : ReorderBuffer α).maxCapacity * size.bytes) ∧
        run (withMaxInner size initial mx : ReorderBuffer α) pre = .error .capacityOverflow) := by
  obtain ⟨post, rfl⟩ := hpre
  rw [List.map_append, List.nodup_append] at hnd
  rw [List.length_append] at hlen
  by_cases hbig : 2 ^ 63 < initial
  · rcases run_oversized (withMaxInner size initial mx) ⟨rfl, rfl, rfl, rfl⟩ (withMaxInner_over size hbig hi mx) pre
      (by omega) with herr | ⟨hok, hord⟩
    · exact Or.inr ⟨.inl hbig, herr⟩
    · refine Or.inl ⟨_, _, hok, Or.inl rfl, rfl, fun i s hs => by simp [withMaxInner] at hs, by simp [withMaxInner],
        _, [], pre, rfl, by simp, fun p hp => hp, ?_⟩
      rw [hord]; exact List.pairwise_lt_range'
  · have hheld : ∀ l, l <+: pre → run (withMaxInner size initial mx : ReorderBuffer α) l ≠ .error .capacityOverflow →
        ∃ b out em h ev, run (withMaxInner size initial mx) l = .ok (b, out) ∧ Held b out l em h ev := by
      rintro l ⟨r, rfl⟩ hno
      rw [List.map_append, List.nodup_append] at hnd
      obtain ⟨b, out, em, h, ev, hrun, hh, -⟩ := run_held (withMaxInner_held size initial (by omega) mx) l hnd.1.1
        (fun o ho => hsmall o (by simp [ho])) (by simp at hlen; omega) hgood.of_append.of_append hno
      exact ⟨b, out, em, h, ev, hrun, hh⟩
    by_cases hpan : run (withMaxInner size initial mx : ReorderBuffer α) pre = .error .capacityOverflow
    · refine Or.inr ⟨.inr (run_over hpan ?_), hpan⟩
      rintro l o r st rfl hst
      obtain ⟨b, out, em, h, ev, hrun, hh⟩ := hheld l ⟨o :: r, rfl⟩ (by rw [hst]; simp)
      cases hst.symm.trans hrun
      exact ⟨hh.core.le, h, fun _ => hh.core⟩
    · obtain ⟨b, out, em, h, ev, hrun, hh⟩ := hheld pre (List.prefix_refl pre) hpan
      exact Or.inl ⟨b, out, hrun, hh.rep⟩

/-- a run with a growth, a flush cascade and a held tail -/
theorem run_rep_growth :
    ∃ b out, run (withMaxInner wordSlot 2 (some 4)) [(1, 10), (3, 30), (0, 0), (5, 50)] = .ok (b, out) ∧
      Rep b out [(1, 10), (3, 30), (0, 0), (5, 50)] := by
  rcases run_rep wordSlot 2 (by decide) (some 4) [(1, 10), (3, 30), (0, 0), (5, 50)] (by decide) (by decide)
    (by decide) (by decide) _ (List.prefix_refl _) with h | h
  · exact h
  · exact absurd h.1 (by decide)

/-- **A misplaced arrival.** With an initial capacity of 2 and a ceiling of 8, seqs 3 and 11 alias up to the ceiling: the
growth loop ends at 8 slots without freeing index 3, and 11 is then written at index 1, its index under the old mask. -/
theorem misplaced_slot :
    ([(3, 30), (11, 110)].map Prod.fst).Nodup ∧ (∀ o ∈ [(3, 30), (11, 110)], o.1 < maxVal) ∧
      ∃ b out, run (withMax wordSlot 2 8) [(3, 30), (11, 110)] = .ok (b, out) ∧ b.slots[1]? = some ⟨12, some 110⟩ ∧
        b.mask = 7 ∧ ¬ Rep b out [(3, 30), (11, 110)] := by
  refine ⟨by decide, by decide, _, _, rfl, rfl, rfl, fun hrep => ?_⟩
  obtain ⟨o, -, ho, hi, -⟩ := hrep.own 1 ⟨12, some 110⟩ rfl (by decide)
  have h11 : o.1 = 11 := by simpa using (congrArg Slot.tag ho).symm
  rw [h11] at hi
  exact absurd hi (by decide)

end YouPipe.Reorder
