/-
The sharded terminal channel (`handoff/sharded.rs`): one receiver over `n` shard channels. A burst pass walks the shards
round-robin from the cursor and drains each until it is empty or closed; the anchor blocks on the first open shard. Closed
shards are marked and never polled again, and end of stream is `open == 0`.

The receiver is a state machine whose steps are single channel operations, so senders may send and close between any two
of them. With a scratch capacity of 0 the pass is the per-item one (`drain_pass`); otherwise it claims batches, and a batch
claim may return fewer items than are ready, even none. On a shard with live senders `try_recv` may report empty although an
item is being pushed; on a shard without senders it reports closed exactly when the queue is empty.

Results: `sharded_delivery` (every reachable state) with the invariant `Inv`, and what the reports of a pass or an anchor mean.
-/
import Mathlib.Tactic
import YouPipe.Core.Channel
import YouPipe.Core.Machine
import YouPipe.Core.RoundRobin

namespace YouPipe.Sharded

open YouPipe.Channel YouPipe.RoundRobin

variable {T : Type}

/-! ## Model -/

/-- what a call returned: a pass says whether a shard is still open, the anchor gives an item or closed -/
inductive Ret where
  | more
  | eof
  | item
  | closed
deriving DecidableEq, Repr

/-- where the receiver is: between calls, in a pass at the shard `k` places after the cursor (about to claim a batch, to ask
whether the shard is disconnected, or to try one item), or in an anchor there -/
inductive Pc where
  | idle (last : Option Ret)
  | claim (k : ℕ)
  | probe (k : ℕ)
  | tryItem (k : ℕ)
  | anchor (k : ℕ)
deriving DecidableEq, Repr

/-- the shards with the receiver's marks, and what was sent and sunk per shard -/
structure Shards (T : Type) where
  chan : ℕ → Chan T
  closed : ℕ → Bool
  openCount : ℕ
  sent : ℕ → List T
  sunk : ℕ → List T

structure St (T : Type) where
  data : Shards T
  cursor : ℕ
  pc : Pc
  /-- every shard was closed and drained when the current or last call began -/
  drainedAtCall : Bool

/-- one step: a sender sends or drops out, the receiver's client makes a call, or the receiver takes its next step; `m`
bounds what the channel yields to it -/
inductive Act (T : Type) where
  | send (i : ℕ) (x : T)
  | close (i : ℕ)
  | callPass
  | callAnchor
  | recv (m : ℕ)
deriving DecidableEq, Repr

def minShardBuffer : ℕ := 4

/-- `sharded_mpsc_channel`: `senders i` producers on shard `i` (one each on the sync side, several on the async one) -/
def init (n totalCapacity : ℕ) (senders : ℕ → ℕ) : St T where
  data := ⟨fun i => ⟨[], max (totalCapacity / n) minShardBuffer, senders i, 1⟩, fun _ => false, n, fun _ => [], fun _ => []⟩
  cursor := 0
  pc := .idle none
  drainedAtCall := false

namespace Shards

def sink (d : Shards T) (i m : ℕ) : Shards T :=
  { d with
    chan := Function.update d.chan i ((d.chan i).take m)
    sunk := Function.update d.sunk i (d.sunk i ++ (d.chan i).queue.take m) }

def mark (d : Shards T) (i : ℕ) : Shards T :=
  { d with closed := Function.update d.closed i true, openCount := d.openCount - 1 }

/-- every shard is closed and drained -/
def allDrained (d : Shards T) (n : ℕ) : Bool :=
  (List.range n).all fun i => (d.chan i).senders == 0 && (d.chan i).queue.isEmpty

end Shards

/-- the receiver's next step, for `n` shards and a batch scratch of capacity `cap` -/
def recvStep (n cap : ℕ) (s : St T) (m : ℕ) : Option (St T) :=
  match s.pc with
  | .idle _ => none
  | .claim k =>
    if k = n then
      some { s with cursor := (s.cursor + 1) % n, pc := .idle (some (if 0 < s.data.openCount then .more else .eof)) }
    else
      let i := (s.cursor + k) % n
      if s.data.closed i then some { s with pc := .claim (k + 1) }
      else if cap = 0 then some { s with pc := .tryItem k }
      else
        let claimed := min m (min cap (s.data.chan i).queue.length)
        if 0 < claimed then some { s with data := s.data.sink i claimed }
        else some { s with pc := .probe k }
  | .probe k =>
    let i := (s.cursor + k) % n
    -- an empty claim on a connected shard is taken as empty
    if 0 < (s.data.chan i).senders then some { s with pc := .claim (k + 1) } else some { s with pc := .tryItem k }
  | .tryItem k =>
    let i := (s.cursor + k) % n
    if (s.data.chan i).queue = [] then
      if 0 < (s.data.chan i).senders then some { s with pc := .claim (k + 1) }
      else some { s with data := s.data.mark i, pc := .claim (k + 1) }
    else if m = 0 ∧ 0 < (s.data.chan i).senders then some { s with pc := .claim (k + 1) }
    else some { s with data := s.data.sink i 1, pc := .claim k }
  | .anchor k =>
    if k = n then some { s with pc := .idle (some .closed) }
    else
      let i := (s.cursor + k) % n
      if s.data.closed i then some { s with pc := .anchor (k + 1) }
      else if (s.data.chan i).queue = [] then
        if 0 < (s.data.chan i).senders then none
        else some { s with data := s.data.mark i, pc := .anchor (k + 1) }
      else some { s with data := s.data.sink i 1, cursor := (i + 1) % n, pc := .idle (some .item) }

def step (n cap : ℕ) (s : St T) : Act T → Option (St T)
  | .send i x =>
    if i < n ∧ 0 < (s.data.chan i).senders ∧ ¬ (s.data.chan i).full then
      some { s with data := { s.data with
        chan := Function.update s.data.chan i ((s.data.chan i).push x)
        sent := Function.update s.data.sent i (s.data.sent i ++ [x]) } }
    else none
  | .close i =>
    if i < n ∧ 0 < (s.data.chan i).senders then
      some { s with data := { s.data with chan := Function.update s.data.chan i (s.data.chan i).dropSender } }
    else none
  | .callPass =>
    match s.pc with
    | .idle _ => some { s with pc := .claim 0, drainedAtCall := s.data.allDrained n }
    | _ => none
  | .callAnchor =>
    match s.pc with
    | .idle _ => some { s with pc := .anchor 0, drainedAtCall := s.data.allDrained n }
    | _ => none
  | .recv m => recvStep n cap s m

def run (n cap : ℕ) (s : St T) (acts : List (Act T)) : Option (St T) := acts.foldlM (step n cap) s

/-! ## The shards -/

/-- per shard nothing is lost, duplicated or reordered; a marked shard is closed and drained; the open count is right -/
structure DataInv (n : ℕ) (d : Shards T) : Prop where
  conserve : ∀ i, d.sent i = d.sunk i ++ (d.chan i).queue
  mark : ∀ i, d.closed i = true → (d.chan i).drained
  count : d.openCount = (unmarked n d.closed).card

theorem DataInv.sink {n : ℕ} {d : Shards T} (h : DataInv n d) {i : ℕ} (hi : d.closed i = false) (m : ℕ) :
    DataInv n (d.sink i m) := by
  refine ⟨fun j => ?_, fun j hj => ?_, h.count⟩
  · by_cases hij : j = i
    · subst hij
      simp only [Shards.sink, Function.update_self, Chan.take_queue, List.append_assoc, List.take_append_drop]
      exact h.conserve j
    · simp only [Shards.sink, Function.update_of_ne hij]
      exact h.conserve j
  · have hij : j ≠ i := by
      rintro rfl
      exact absurd (hi.symm.trans hj) Bool.false_ne_true
    simp only [Shards.sink, Function.update_of_ne hij]
    exact h.mark j hj

theorem DataInv.close {n : ℕ} {d : Shards T} (h : DataInv n d) {i : ℕ} (hi : i < n) (hc : d.closed i = false)
    (hd : (d.chan i).drained) : DataInv n (d.mark i) := by
  refine ⟨h.conserve, fun j hj => ?_, ?_⟩
  · by_cases hij : j = i
    · subst hij
      exact hd
    · simp only [Shards.mark, Function.update_of_ne hij] at hj
      exact h.mark j hj
  · rw [Shards.mark, card_unmarked_mark hi hc, h.count]

theorem openCount_eq_zero {n : ℕ} {d : Shards T} (h : DataInv n d) : d.openCount = 0 ↔ ∀ i < n, d.closed i = true := by
  rw [h.count, card_unmarked_eq_zero]

theorem allDrained_iff {n : ℕ} {d : Shards T} : d.allDrained n = true ↔ ∀ i < n, (d.chan i).drained := by
  simp [Shards.allDrained, Chan.drained]

/-! ## The invariant -/

/-- the shards a pass or an anchor has walked past, counted from the cursor, are marked -/
def Walked (s : St T) (n k : ℕ) : Prop := ∀ j < k, s.data.closed ((s.cursor + j) % n) = true

/-- where the receiver can be -/
def PcInv (n : ℕ) (s : St T) : Prop :=
  match s.pc with
  | .idle (some .eof) => s.data.openCount = 0
  | .idle (some .closed) => s.data.openCount = 0
  | .idle _ => True
  | .claim k => k ≤ n
  | .probe k => k < n ∧ s.data.closed ((s.cursor + k) % n) = false
  | .tryItem k => k < n ∧ s.data.closed ((s.cursor + k) % n) = false
  | .anchor k => k ≤ n ∧ Walked s n k

/-- a call that began on drained shards only marks them -/
def DrainedInv (n : ℕ) (s : St T) : Prop :=
  (∀ i < n, (s.data.chan i).drained) ∧
    match s.pc with
    | .idle none => False
    | .idle (some .more) => False
    | .idle (some .item) => False
    | .claim k => Walked s n k
    | .probe k => Walked s n k
    | .tryItem k => Walked s n k
    | _ => True

structure Inv (n : ℕ) (s : St T) : Prop where
  data : DataInv n s.data
  cursor : s.cursor < n
  place : PcInv n s
  drained : s.drainedAtCall = true → DrainedInv n s

theorem Walked.succ {s : St T} {n k : ℕ} (h : Walked s n k) (hk : s.data.closed ((s.cursor + k) % n) = true) :
    Walked s n (k + 1) := by
  intro j hj
  rcases Nat.lt_succ_iff_lt_or_eq.1 hj with h' | rfl
  · exact h j h'
  · exact hk

/-- marking keeps the walked shards marked and adds the current one -/
theorem Walked.mark {s : St T} {n k : ℕ} (h : Walked s n k) (pc : Pc) :
    Walked { s with data := s.data.mark ((s.cursor + k) % n), pc := pc } n (k + 1) := by
  intro j hj
  simp only [Shards.mark]
  by_cases hjk : (s.cursor + j) % n = (s.cursor + k) % n
  · rw [hjk, Function.update_self]
  · rw [Function.update_of_ne hjk]
    rcases Nat.lt_succ_iff_lt_or_eq.1 hj with h' | rfl
    · exact h j h'
    · exact absurd rfl hjk

/-- a step that only moves the program counter of a call -/
theorem Inv.goto {n : ℕ} {s : St T} (h : Inv n s) {pc : Pc} (hpc : PcInv n { s with pc := pc })
    (hd : DrainedInv n s → DrainedInv n { s with pc := pc }) : Inv n { s with pc := pc } :=
  ⟨h.data, h.cursor, hpc, fun hdr => hd (h.drained hdr)⟩

/-- a step that sinks items: there are some, so the call did not begin on drained shards -/
theorem Inv.sink {n : ℕ} {s : St T} (h : Inv n s) {i : ℕ} (hi : i < n) (hc : s.data.closed i = false)
    (hq : (s.data.chan i).queue ≠ []) (m cursor : ℕ) (hcur : cursor < n) (pc : Pc)
    (hpc : PcInv n { s with data := s.data.sink i m, cursor := cursor, pc := pc }) :
    Inv n { s with data := s.data.sink i m, cursor := cursor, pc := pc } :=
  ⟨h.data.sink hc m, hcur, hpc, fun hdr => absurd ((h.drained hdr).1 i hi).2 hq⟩

theorem Inv.mark {n : ℕ} {s : St T} (h : Inv n s) {i : ℕ} (hi : i < n) (hc : s.data.closed i = false)
    (hd : (s.data.chan i).drained) (pc : Pc) (hpc : PcInv n { s with data := s.data.mark i, pc := pc })
    (hdr : DrainedInv n s → DrainedInv n { s with data := s.data.mark i, pc := pc }) :
    Inv n { s with data := s.data.mark i, pc := pc } :=
  ⟨h.data.close hi hc hd, h.cursor, hpc, fun hd' => hdr (h.drained hd')⟩

/-- on drained shards a walk over all places leaves no shard open -/
theorem Inv.openCount_of_walked {n : ℕ} {s : St T} (h : Inv n s) (hw : Walked s n n) : s.data.openCount = 0 :=
  (openCount_eq_zero h.data).2 (all_closed_of_walk h.cursor hw)

theorem recvStep_claim {n cap m k : ℕ} {s s' : St T} (h : Inv n s) (hpc : s.pc = .claim k)
    (hs : recvStep n cap s m = some s') : Inv n s' := by
  have hk : k ≤ n := by simpa only [PcInv, hpc] using h.place
  have hdr : DrainedInv n s → (∀ i < n, (s.data.chan i).drained) ∧ Walked s n k := by
    simp only [DrainedInv, hpc]
    exact id
  have hpos : 0 < n := Nat.zero_lt_of_lt h.cursor
  simp only [recvStep, hpc] at hs
  split_ifs at hs with hkn hopen hc hcap hcl
  · -- the pass ends with a shard open: it began on shards not all drained
    cases hs
    subst hkn
    refine ⟨h.data, Nat.mod_lt _ hpos, trivial, fun hd => ?_⟩
    have hzero := h.openCount_of_walked (hdr (h.drained hd)).2
    exact absurd hopen (by simp [hzero])
  · cases hs
    refine ⟨h.data, Nat.mod_lt _ hpos, Nat.eq_zero_of_not_pos hopen, fun hd => ⟨(h.drained hd).1, trivial⟩⟩
  · cases hs
    apply h.goto
    · exact Nat.lt_of_le_of_ne hk hkn
    · intro hd
      exact ⟨hd.1, (hdr hd).2.succ hc⟩
  · cases hs
    apply h.goto
    · exact ⟨Nat.lt_of_le_of_ne hk hkn, Bool.eq_false_iff.2 hc⟩
    · intro hd
      exact hdr hd
  · cases hs
    apply h.sink (Nat.mod_lt _ hpos) (Bool.eq_false_iff.2 hc) _ _ _ h.cursor
    · simpa only [PcInv, hpc] using hk
    · intro hq
      simp [hq] at hcl
  · cases hs
    apply h.goto
    · exact ⟨Nat.lt_of_le_of_ne hk hkn, Bool.eq_false_iff.2 hc⟩
    · intro hd
      exact hdr hd

theorem recvStep_probe {n cap m k : ℕ} {s s' : St T} (h : Inv n s) (hpc : s.pc = .probe k)
    (hs : recvStep n cap s m = some s') : Inv n s' := by
  have hk : k < n ∧ s.data.closed ((s.cursor + k) % n) = false := by simpa only [PcInv, hpc] using h.place
  have hdr : DrainedInv n s → (∀ i < n, (s.data.chan i).drained) ∧ Walked s n k := by
    simp only [DrainedInv, hpc]
    exact id
  have hi : (s.cursor + k) % n < n := Nat.mod_lt _ (Nat.zero_lt_of_lt h.cursor)
  simp only [recvStep, hpc] at hs
  split_ifs at hs with hsend
  · cases hs
    apply h.goto
    · exact hk.1
    · intro hd
      exact absurd (hd.1 _ hi).1 (Nat.pos_iff_ne_zero.1 hsend)
  · cases hs
    apply h.goto
    · exact hk
    · intro hd
      exact hdr hd

theorem recvStep_tryItem {n cap m k : ℕ} {s s' : St T} (h : Inv n s) (hpc : s.pc = .tryItem k)
    (hs : recvStep n cap s m = some s') : Inv n s' := by
  have hk : k < n ∧ s.data.closed ((s.cursor + k) % n) = false := by simpa only [PcInv, hpc] using h.place
  have hdr : DrainedInv n s → (∀ i < n, (s.data.chan i).drained) ∧ Walked s n k := by
    simp only [DrainedInv, hpc]
    exact id
  have hi : (s.cursor + k) % n < n := Nat.mod_lt _ (Nat.zero_lt_of_lt h.cursor)
  simp only [recvStep, hpc] at hs
  split_ifs at hs with hq hsend hm
  · cases hs
    apply h.goto
    · exact hk.1
    · intro hd
      exact absurd (hd.1 _ hi).1 (Nat.pos_iff_ne_zero.1 hsend)
  · cases hs
    apply h.mark hi hk.2 ⟨Nat.eq_zero_of_not_pos hsend, hq⟩
    · exact hk.1
    · intro hd
      exact ⟨hd.1, (hdr hd).2.mark _⟩
  · cases hs
    apply h.goto
    · exact hk.1
    · intro hd
      exact absurd (hd.1 _ hi).1 (Nat.pos_iff_ne_zero.1 hm.2)
  · cases hs
    apply h.sink hi hk.2 hq _ _ h.cursor
    exact hk.1.le

theorem recvStep_anchor {n cap m k : ℕ} {s s' : St T} (h : Inv n s) (hpc : s.pc = .anchor k)
    (hs : recvStep n cap s m = some s') : Inv n s' := by
  have hk : k ≤ n ∧ Walked s n k := by simpa only [PcInv, hpc] using h.place
  have hi : (s.cursor + k) % n < n := Nat.mod_lt _ (Nat.zero_lt_of_lt h.cursor)
  simp only [recvStep, hpc] at hs
  split_ifs at hs with hkn hc hq hsend
  · cases hs
    subst hkn
    apply h.goto
    · exact h.openCount_of_walked hk.2
    · intro hd
      exact ⟨hd.1, trivial⟩
  · cases hs
    apply h.goto
    · exact ⟨Nat.lt_of_le_of_ne hk.1 hkn, hk.2.succ hc⟩
    · intro hd
      exact ⟨hd.1, trivial⟩
  · cases hs
    apply h.mark hi (Bool.eq_false_iff.2 hc) ⟨Nat.eq_zero_of_not_pos hsend, hq⟩
    · exact ⟨Nat.lt_of_le_of_ne hk.1 hkn, hk.2.mark _⟩
    · intro hd
      exact ⟨hd.1, trivial⟩
  · cases hs
    apply h.sink hi (Bool.eq_false_iff.2 hc) hq _ _ (Nat.mod_lt _ (Nat.zero_lt_of_lt h.cursor))
    exact trivial

theorem recvStep_inv {n cap m : ℕ} {s s' : St T} (h : Inv n s) (hs : recvStep n cap s m = some s') : Inv n s' := by
  cases hpc : s.pc with
  | idle r => simp [recvStep, hpc] at hs
  | claim k => exact recvStep_claim h hpc hs
  | probe k => exact recvStep_probe h hpc hs
  | tryItem k => exact recvStep_tryItem h hpc hs
  | anchor k => exact recvStep_anchor h hpc hs

/-- what a step of the receiver does to the shards: it only looks and marks, or it sinks from one shard -/
theorem recvStep_shards {n cap m : ℕ} {s s' : St T} (h : Inv n s) (hs : recvStep n cap s m = some s') :
    (s'.data.chan = s.data.chan ∧ s'.data.sunk = s.data.sunk) ∨
      ∃ i < n, ∃ c, 0 < c ∧ c ≤ (s.data.chan i).queue.length ∧ s'.data = s.data.sink i c := by
  have hi : ∀ k, (s.cursor + k) % n < n := fun k => Nat.mod_lt _ (Nat.zero_lt_of_lt h.cursor)
  cases hpc : s.pc with
  | idle r => simp [recvStep, hpc] at hs
  | claim k =>
    simp only [recvStep, hpc] at hs
    split_ifs at hs with hkn hopen hc hcap hcl <;> cases hs
    · exact .inl ⟨rfl, rfl⟩
    · exact .inl ⟨rfl, rfl⟩
    · exact .inl ⟨rfl, rfl⟩
    · exact .inl ⟨rfl, rfl⟩
    · exact .inr ⟨_, hi k, _, hcl, (min_le_right m _).trans (min_le_right cap _), rfl⟩
    · exact .inl ⟨rfl, rfl⟩
  | probe k =>
    simp only [recvStep, hpc] at hs
    split_ifs at hs <;> cases hs <;> exact .inl ⟨rfl, rfl⟩
  | tryItem k =>
    simp only [recvStep, hpc] at hs
    split_ifs at hs with hq hsend hm <;> cases hs
    · exact .inl ⟨rfl, rfl⟩
    · exact .inl ⟨rfl, rfl⟩
    · exact .inl ⟨rfl, rfl⟩
    · exact .inr ⟨_, hi k, 1, Nat.one_pos, List.length_pos_iff.2 hq, rfl⟩
  | anchor k =>
    simp only [recvStep, hpc] at hs
    split_ifs at hs with hkn hc hq hsend <;> cases hs
    · exact .inl ⟨rfl, rfl⟩
    · exact .inl ⟨rfl, rfl⟩
    · exact .inl ⟨rfl, rfl⟩
    · exact .inr ⟨_, hi k, 1, Nat.one_pos, List.length_pos_iff.2 hq, rfl⟩

/-- a sender's step on a shard that still has one: the shard is neither marked nor drained -/
theorem Inv.produce {n : ℕ} {s : St T} (h : Inv n s) {i : ℕ} (hi : i < n) (hsend : 0 < (s.data.chan i).senders)
    (c : Chan T) (sent : List T) (hc : sent = s.data.sunk i ++ c.queue) :
    Inv n { s with data := { s.data with
      chan := Function.update s.data.chan i c
      sent := Function.update s.data.sent i sent } } := by
  refine ⟨⟨fun j => ?_, fun j hj => ?_, h.data.count⟩, h.cursor, h.place, fun hd => ?_⟩
  · by_cases hij : j = i
    · subst hij
      simpa only [Function.update_self] using hc
    · simp only [Function.update_of_ne hij]
      exact h.data.conserve j
  · have hdr := h.data.mark j hj
    have hij : j ≠ i := by
      intro hij
      subst hij
      exact absurd hdr.1 (Nat.pos_iff_ne_zero.1 hsend)
    simp only [Function.update_of_ne hij]
    exact hdr
  · exact absurd ((h.drained hd).1 i hi).1 (Nat.pos_iff_ne_zero.1 hsend)

theorem step_inv {n cap : ℕ} {s s' : St T} (h : Inv n s) {a : Act T} (hs : step n cap s a = some s') : Inv n s' := by
  cases a with
  | send i x =>
    simp only [step] at hs
    split_ifs at hs with hc
    cases hs
    apply h.produce hc.1 hc.2.1
    rw [Chan.push_queue, ← List.append_assoc, ← h.data.conserve i]
  | close i =>
    simp only [step] at hs
    split_ifs at hs with hc
    cases hs
    have hp := h.produce hc.1 hc.2 (s.data.chan i).dropSender (s.data.sent i) (h.data.conserve i)
    simpa only [Function.update_eq_self] using hp
  | callPass =>
    simp only [step] at hs
    split at hs
    · cases hs
      refine ⟨h.data, h.cursor, Nat.zero_le n, fun hd => ⟨allDrained_iff.1 hd, ?_⟩⟩
      intro j hj
      exact absurd hj (Nat.not_lt_zero j)
    · cases hs
  | callAnchor =>
    simp only [step] at hs
    split at hs
    · cases hs
      refine ⟨h.data, h.cursor, ⟨Nat.zero_le n, fun j hj => absurd hj (Nat.not_lt_zero j)⟩, fun hd => ?_⟩
      exact ⟨allDrained_iff.1 hd, trivial⟩
    · cases hs
  | recv m => exact recvStep_inv h hs

theorem init_inv {n totalCapacity : ℕ} {senders : ℕ → ℕ} (hn : 0 < n) :
    Inv n (init n totalCapacity senders : St T) := by
  refine ⟨⟨fun _ => rfl, fun j hj => absurd hj Bool.false_ne_true, ?_⟩, hn, trivial, fun hd => absurd hd Bool.false_ne_true⟩
  simp [init, unmarked]

theorem run_inv {n cap : ℕ} {acts : List (Act T)} {s s' : St T} (h : Inv n s) (hs : run n cap s acts = some s') :
    Inv n s' :=
  Machine.run_keeps (fun _ h hs => step_inv h hs) h hs

/-! ## Reports -/

/-- the last call reported end of stream -/
def reported (s : St T) : Prop := s.pc = .idle (some .eof) ∨ s.pc = .idle (some .closed)

/-- the receiver waits in an anchor for an open shard without items -/
def blocked (n : ℕ) (s : St T) : Prop :=
  ∃ k < n, s.pc = .anchor k ∧ s.data.closed ((s.cursor + k) % n) = false ∧
    (s.data.chan ((s.cursor + k) % n)).queue = [] ∧ 0 < (s.data.chan ((s.cursor + k) % n)).senders

theorem Inv.eof {n : ℕ} {s : St T} (h : Inv n s) (hr : reported s) :
    ∀ i < n, (s.data.chan i).drained ∧ s.data.sunk i = s.data.sent i := by
  have hzero : s.data.openCount = 0 := by
    rcases hr with hpc | hpc
    · simpa only [PcInv, hpc] using h.place
    · simpa only [PcInv, hpc] using h.place
  intro i hi
  have hdr := h.data.mark i ((openCount_eq_zero h.data).1 hzero i hi)
  refine ⟨hdr, ?_⟩
  rw [h.data.conserve i, hdr.2, List.append_nil]

theorem Inv.reported_of_drained {n : ℕ} {s : St T} (h : Inv n s) (hd : s.drainedAtCall = true) {r : Option Ret}
    (hpc : s.pc = .idle r) : reported s := by
  have hdr := (h.drained hd).2
  simp only [hpc] at hdr
  match r, hpc with
  | none, _ => exact hdr.elim
  | some .more, _ => exact hdr.elim
  | some .item, _ => exact hdr.elim
  | some .eof, hpc => exact .inl hpc
  | some .closed, hpc => exact .inr hpc

/-- the items in the shards -/
def waiting (n : ℕ) (d : Shards T) : ℕ := ∑ i ∈ Finset.range n, (d.chan i).queue.length

theorem waiting_sink {n i m : ℕ} {d : Shards T} (hi : i < n) (hm : m ≤ (d.chan i).queue.length) :
    waiting n (d.sink i m) + m = waiting n d := by
  have hrest : ∑ j ∈ (Finset.range n).erase i, ((d.sink i m).chan j).queue.length =
      ∑ j ∈ (Finset.range n).erase i, (d.chan j).queue.length := by
    apply Finset.sum_congr rfl
    intro j hj
    simp only [Shards.sink, Function.update_of_ne (Finset.ne_of_mem_erase hj)]
  have hself : ((d.sink i m).chan i).queue.length + m = (d.chan i).queue.length := by
    simp only [Shards.sink, Function.update_self, Chan.take_queue, List.length_drop]
    omega
  rw [waiting, waiting, ← Finset.add_sum_erase _ _ (Finset.mem_range.2 hi),
    ← Finset.add_sum_erase _ _ (Finset.mem_range.2 hi), hrest, ← hself]
  omega

/-- a bound on the steps the receiver can take before its call returns or blocks, when no sender moves -/
def stepsLeft (n : ℕ) (s : St T) : ℕ :=
  3 * waiting n s.data +
    match s.pc with
    | .idle _ => 0
    | .claim k => 3 * (n - k) + 1
    | .probe k => 3 * (n - k)
    | .tryItem k => 3 * (n - k) - 1
    | .anchor k => n - k + 1

/-- every step of the receiver brings its call closer to the return -/
theorem stepsLeft_lt {n cap m : ℕ} {s s' : St T} (h : Inv n s) (hs : recvStep n cap s m = some s') :
    stepsLeft n s' < stepsLeft n s := by
  have hi : ∀ k, (s.cursor + k) % n < n := fun k => Nat.mod_lt _ (Nat.zero_lt_of_lt h.cursor)
  have hplace := h.place
  have hone : ∀ k, (s.data.chan ((s.cursor + k) % n)).queue ≠ [] →
      waiting n (s.data.sink ((s.cursor + k) % n) 1) + 1 = waiting n s.data := by
    intro k hq
    exact waiting_sink (hi k) (List.length_pos_iff.2 hq)
  cases hpc : s.pc with
  | idle r => simp [recvStep, hpc] at hs
  | claim k =>
    simp only [PcInv, hpc] at hplace
    simp only [recvStep, hpc] at hs
    split_ifs at hs with hkn hopen hc hcap hcl <;> cases hs <;> simp only [stepsLeft, hpc]
    · omega
    · omega
    · omega
    · omega
    · have := waiting_sink (d := s.data) (hi k) ((min_le_right m _).trans (min_le_right cap _))
      omega
    · omega
  | probe k =>
    simp only [PcInv, hpc] at hplace
    simp only [recvStep, hpc] at hs
    split_ifs at hs <;> cases hs <;> simp only [stepsLeft, hpc] <;> omega
  | tryItem k =>
    simp only [PcInv, hpc] at hplace
    simp only [recvStep, hpc] at hs
    split_ifs at hs with hq hsend hm <;> cases hs <;> simp only [stepsLeft, hpc]
    · omega
    · simp only [waiting, Shards.mark]
      omega
    · omega
    · have := hone k hq
      omega
  | anchor k =>
    simp only [PcInv, hpc] at hplace
    simp only [recvStep, hpc] at hs
    split_ifs at hs with hkn hc hq hsend <;> cases hs <;> simp only [stepsLeft, hpc]
    · omega
    · omega
    · simp only [waiting, Shards.mark]
      omega
    · have := hone k hq
      omega

/-- the receiver has no step only between calls and in a blocked anchor -/
theorem idle_or_blocked {n cap m : ℕ} {s : St T} (h : Inv n s) (hs : recvStep n cap s m = none) :
    (∃ r, s.pc = .idle r) ∨ blocked n s := by
  have hplace := h.place
  cases hpc : s.pc with
  | idle r => exact .inl ⟨r, rfl⟩
  | anchor k =>
    simp only [PcInv, hpc] at hplace
    simp only [recvStep, hpc] at hs
    split_ifs at hs with hkn hc hq hsend
    exact .inr ⟨k, Nat.lt_of_le_of_ne hplace.1 hkn, hpc, Bool.eq_false_iff.2 hc, hq, hsend⟩
  | claim k =>
    simp only [recvStep, hpc] at hs
    split_ifs at hs
  | probe k =>
    simp only [recvStep, hpc] at hs
    split_ifs at hs
  | tryItem k =>
    simp only [recvStep, hpc] at hs
    split_ifs at hs

/-- left alone, a call returns or blocks, whatever the channels yield to it -/
theorem call_settles {n cap : ℕ} {s : St T} (h : Inv n s) (ms : List ℕ) (hlen : stepsLeft n s < ms.length) :
    ∃ j s', run n cap s ((ms.take j).map .recv) = some s' ∧ ((∃ r, s'.pc = .idle r) ∨ blocked n s') := by
  induction ms generalizing s with
  | nil => simp at hlen
  | cons m ms ih =>
    cases hs : recvStep n cap s m with
    | none => exact ⟨0, s, rfl, idle_or_blocked h hs⟩
    | some s₁ =>
      have hlt := stepsLeft_lt h hs
      obtain ⟨j, s', hrun, hend⟩ := ih (recvStep_inv h hs) (by simp only [List.length_cons] at hlen; omega)
      refine ⟨j + 1, s', ?_, hend⟩
      simp only [run, List.take_succ_cons, List.map_cons, List.foldlM_cons, step, hs]
      exact hrun

/-! ## A pass by itself -/

/-- the shards a pass has walked past are empty when no sender moves and the channels yield what they hold -/
def Swept (n : ℕ) (s : St T) : Prop :=
  match s.pc with
  | .idle _ => ∀ i < n, (s.data.chan i).queue = []
  | .claim k => ∀ j < k, (s.data.chan ((s.cursor + j) % n)).queue = []
  | .probe k => ∀ j < k + 1, (s.data.chan ((s.cursor + j) % n)).queue = []
  | .tryItem k => ∀ j < k, (s.data.chan ((s.cursor + j) % n)).queue = []
  | .anchor _ => False

theorem sink_empty {d : Shards T} {i j m : ℕ} (h : (d.chan j).queue = []) : ((d.sink i m).chan j).queue = [] := by
  by_cases hij : j = i
  · subst hij
    simp [Shards.sink, h]
  · simpa only [Shards.sink, Function.update_of_ne hij] using h

theorem swept_succ {n k : ℕ} {s : St T} (h : ∀ j < k, (s.data.chan ((s.cursor + j) % n)).queue = [])
    (hk : (s.data.chan ((s.cursor + k) % n)).queue = []) :
    ∀ j < k + 1, (s.data.chan ((s.cursor + j) % n)).queue = [] := by
  intro j hj
  rcases Nat.lt_succ_iff_lt_or_eq.1 hj with h' | rfl
  · exact h j h'
  · exact hk

theorem recvStep_swept {n cap m : ℕ} {s s' : St T} (h : Inv n s) (hsw : Swept n s) (hm : 0 < m)
    (hs : recvStep n cap s m = some s') : Swept n s' ∧ s'.data.sent = s.data.sent := by
  cases hpc : s.pc with
  | idle r => simp [recvStep, hpc] at hs
  | anchor k => simp [Swept, hpc] at hsw
  | claim k =>
    simp only [Swept, hpc] at hsw
    simp only [recvStep, hpc] at hs
    split_ifs at hs with hkn hopen hc hcap hcl
    · cases hs
      subst hkn
      refine ⟨fun i hi => ?_, rfl⟩
      have hall := @all_closed_of_walk _ (fun i => (s.data.chan i).queue.isEmpty) _ h.cursor
        (fun j hj => by simp [hsw j hj])
      simpa using hall i hi
    · cases hs
      subst hkn
      refine ⟨fun i hi => ?_, rfl⟩
      have hall := @all_closed_of_walk _ (fun i => (s.data.chan i).queue.isEmpty) _ h.cursor
        (fun j hj => by simp [hsw j hj])
      simpa using hall i hi
    · cases hs
      exact ⟨swept_succ hsw (h.data.mark _ hc).2, rfl⟩
    · cases hs
      exact ⟨hsw, rfl⟩
    · cases hs
      refine ⟨?_, rfl⟩
      simp only [Swept]
      intro j hj
      exact sink_empty (hsw j hj)
    · cases hs
      -- a claim of a positive bound comes back empty only from an empty shard
      have hempty : (s.data.chan ((s.cursor + k) % n)).queue = [] := by
        by_contra hne
        have := List.length_pos_iff.2 hne
        omega
      exact ⟨swept_succ hsw hempty, rfl⟩
  | probe k =>
    simp only [Swept, hpc] at hsw
    simp only [recvStep, hpc] at hs
    split_ifs at hs
    · cases hs
      exact ⟨hsw, rfl⟩
    · cases hs
      exact ⟨fun j hj => hsw j (Nat.lt_succ_of_lt hj), rfl⟩
  | tryItem k =>
    simp only [Swept, hpc] at hsw
    simp only [recvStep, hpc] at hs
    split_ifs at hs with hq hsend hz
    · cases hs
      exact ⟨swept_succ hsw hq, rfl⟩
    · cases hs
      exact ⟨swept_succ hsw hq, rfl⟩
    · exact absurd hz.1 (Nat.pos_iff_ne_zero.1 hm)
    · cases hs
      exact ⟨fun j hj => sink_empty (hsw j hj), rfl⟩

theorem run_swept {n cap : ℕ} {ms : List ℕ} {s s' : St T} (h : Inv n s) (hsw : Swept n s) (hm : ∀ m ∈ ms, 0 < m)
    (hs : run n cap s (ms.map .recv) = some s') : Swept n s' ∧ s'.data.sent = s.data.sent := by
  induction ms generalizing s with
  | nil =>
    cases hs
    exact ⟨hsw, rfl⟩
  | cons m ms ih =>
    simp only [run, List.map_cons, List.foldlM_cons, Option.bind_eq_bind, Option.bind_eq_some_iff, step] at hs
    obtain ⟨s₁, hstep, hrest⟩ := hs
    obtain ⟨hsw₁, hsent₁⟩ := recvStep_swept h hsw (hm m List.mem_cons_self) hstep
    obtain ⟨hsw', hsent'⟩ := ih (recvStep_inv h hstep) hsw₁ (fun x hx => hm x (List.mem_cons_of_mem m hx)) hrest
    exact ⟨hsw', hsent'.trans hsent₁⟩

/-- a pass by itself, batched or per item, sinks everything that had been sent -/
theorem pass_sinks_all {n cap : ℕ} {ms : List ℕ} {s s' : St T} (h : Inv n s) (hm : ∀ m ∈ ms, 0 < m)
    (hs : run n cap s (.callPass :: ms.map .recv) = some s') {r : Option Ret} (hr : s'.pc = .idle r) :
    ∀ i < n, s'.data.sunk i = s.data.sent i := by
  simp only [run, List.foldlM_cons, Option.bind_eq_bind, Option.bind_eq_some_iff] at hs
  obtain ⟨s₁, hcall, hrest⟩ := hs
  have hinv := step_inv h hcall
  have hstart : Swept n s₁ ∧ s₁.data = s.data := by
    simp only [step] at hcall
    split at hcall
    · cases hcall
      exact ⟨fun j hj => absurd hj (Nat.not_lt_zero j), rfl⟩
    · cases hcall
  obtain ⟨hsw, hsent⟩ := run_swept hinv hstart.1 hm hrest
  have hdata := (run_inv hinv hrest).data
  intro i hi
  simp only [Swept, hr] at hsw
  rw [← hstart.2, ← hsent, hdata.conserve i, hsw i hi, List.append_nil]

/-! ## Delivery -/

/-- **delivery and end of stream**: in every state reached by any interleaving of sends, closes, passes and anchors, batched
(`0 < cap`) or per item (`cap = 0`),
- per shard, the sunk items followed by the queued ones are the sent ones;
- the open count is the number of unmarked shards, and the cursor is below the shard count;
- a report of end of stream means that every shard is closed, drained and sunk in full;
- a call that began on closed and drained shards reports end of stream;
- the receiver left alone returns from its call, or blocks in an anchor on an open shard without items;
- a pass by itself sinks everything sent so far, and a run with another batch capacity and the same sends that reported end
  of stream has sunk the same items. -/
theorem sharded_delivery {n cap totalCapacity : ℕ} {senders : ℕ → ℕ} (hn : 0 < n) {acts : List (Act T)} {s : St T}
    (hrun : run n cap (init n totalCapacity senders) acts = some s) :
    (∀ i, s.data.sent i = s.data.sunk i ++ (s.data.chan i).queue) ∧
    (s.data.openCount = (unmarked n s.data.closed).card ∧ s.cursor < n) ∧
    (reported s → ∀ i < n, (s.data.chan i).drained ∧ s.data.sunk i = s.data.sent i) ∧
    (∀ r, s.drainedAtCall = true → s.pc = .idle r → reported s) ∧
    (∀ ms : List ℕ, stepsLeft n s < ms.length →
      ∃ j s', run n cap s ((ms.take j).map .recv) = some s' ∧ ((∃ r, s'.pc = .idle r) ∨ blocked n s')) ∧
    (∀ (ms : List ℕ) s' r, (∀ m ∈ ms, 0 < m) → run n cap s (.callPass :: ms.map .recv) = some s' → s'.pc = .idle r →
      ∀ i < n, s'.data.sunk i = s.data.sent i) ∧
    (∀ cap' acts' s', run n cap' (init n totalCapacity senders) acts' = some s' → reported s → reported s' →
      s'.data.sent = s.data.sent → ∀ i < n, s'.data.sunk i = s.data.sunk i) := by
  have h : Inv n s := run_inv (init_inv hn) hrun
  refine ⟨h.data.conserve, ⟨h.data.count, h.cursor⟩, h.eof, ?_, ?_, ?_, ?_⟩
  · intro r hd hpc
    exact h.reported_of_drained hd hpc
  · intro ms hlen
    exact call_settles h ms hlen
  · intro ms s' r hm hs hr
    exact pass_sinks_all h hm hs hr
  · intro cap' acts' s' hrun' hr hr' hsent i hi
    have h' : Inv n s' := run_inv (init_inv hn) hrun'
    rw [(h'.eof hr' i hi).2, (h.eof hr i hi).2, hsent]

/-- two shards with one sender each; shard 1's items go out in two claims, shard 0 closes empty -/
def twoShards : List (Act ℕ) :=
  [.send 1 7, .callPass, .close 0, .recv 1, .recv 1, .recv 1, .send 1 8, .recv 1, .close 1, .recv 5, .recv 1, .recv 1, .recv 1,
    .recv 1]

theorem sharded_delivery_twoShards :
    ∃ s : St ℕ, run 2 4 (init 2 8 fun _ => 1) twoShards = some s ∧ reported s ∧ s.data.sunk 1 = [7, 8] ∧
      s.data.sunk 1 = s.data.sent 1 := by
  obtain ⟨s, hs⟩ : ∃ s, run 2 4 (init 2 8 fun _ => 1) twoShards = some s := ⟨_, rfl⟩
  have hr : reported s := by
    cases hs
    exact .inl rfl
  have hsunk : s.data.sunk 1 = [7, 8] := by
    cases hs
    rfl
  have hall := (sharded_delivery (by decide) hs).2.2.1 hr 1 (by decide)
  exact ⟨s, hs, hr, hsunk, hall.2⟩

end YouPipe.Sharded
