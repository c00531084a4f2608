/-
What reads the last rings of a streaming topology: the drain loop over one ring (`drain_loop!`, modelled in `State.Drain`) or
over the shards of a sharded terminal (`drain_unordered_sharded` and `drain_ordered_sharded`: a pass, an anchor, and again, over
the receiver of `Handoff.Sharded`).

A receiver is a state machine that sees the rings from outside. Each of its steps is one channel operation and takes messages
from at most one ring. The laws in `Receiver` are all that a run needs to know: it takes what is there, it returns only when
every ring is closed and empty, it waits only for an open empty ring, and between two messages it makes boundedly many steps.
-/
import Mathlib.Tactic
import YouPipe.Handoff.Sharded
import YouPipe.State.Drain

namespace YouPipe.Stream

open YouPipe.Channel

variable {T : Type}

/-! ## Interface -/

/-- the rings as a receiver sees them -/
structure View (T : Type) where
  queue : ℕ → List T
  isOpen : ℕ → Bool

/-- after the `m` oldest messages of ring `r` were taken -/
def View.take (v : View T) (r m : ℕ) : View T := ⟨Function.update v.queue r ((v.queue r).drop m), v.isOpen⟩

/-- what senders can do: nothing to a closed ring -/
def View.Later (v v' : View T) : Prop := ∀ r, v.isOpen r = false → v'.isOpen r = false ∧ v'.queue r = v.queue r

/-- a receiver over `n` rings: its places, its steps (with the ring and the number of messages taken, if any), and the laws -/
structure Receiver (n : ℕ) (T : Type) where
  Pos : Type
  start : Pos
  step : Pos → View T → ℕ → Option (Pos × Option (ℕ × ℕ))
  returned : Pos → Bool
  Inv : Pos → View T → Prop
  rank : Pos → ℕ
  bound : ℕ
  start_inv : ∀ v, Inv start v
  start_open : returned start = false
  silent_inv : ∀ {p p' : Pos} {v : View T} {m : ℕ}, Inv p v → step p v m = some (p', none) → Inv p' v
  take_inv : ∀ {p p' : Pos} {v : View T} {m r c : ℕ}, Inv p v → step p v m = some (p', some (r, c)) → Inv p' (v.take r c)
  later_inv : ∀ {p : Pos} {v v' : View T}, Inv p v → v.Later v' → Inv p v'
  legal : ∀ {p p' : Pos} {v : View T} {m r c : ℕ}, Inv p v → step p v m = some (p', some (r, c)) →
    r < n ∧ 0 < c ∧ c ≤ (v.queue r).length ∧ returned p' = false
  finished : ∀ {p : Pos} {v : View T}, Inv p v → returned p = true → ∀ r < n, v.queue r = [] ∧ v.isOpen r = false
  rests : ∀ {p : Pos} (v : View T) (m : ℕ), returned p = true → step p v m = none
  waits : ∀ {p : Pos} {v : View T} {m : ℕ}, Inv p v → step p v m = none → returned p = false →
    ∃ r < n, v.queue r = [] ∧ v.isOpen r = true
  rank_lt : ∀ {p p' : Pos} {v : View T} {m : ℕ}, Inv p v → step p v m = some (p', none) → rank p' < rank p
  rank_le : ∀ {p : Pos} {v : View T}, Inv p v → rank p ≤ bound

/-! ## One ring -/

namespace Single

/-- the sink is the run's own -/
def blank : Drain.Sink Unit T := ⟨fun _ _ => .ok (), .ok⟩

/-- the drain loop at place `pc`, with the ring as its channel -/
def load (pc : Drain.Pc) (v : View T) : Drain.St Unit T :=
  ⟨⟨v.queue 0, (v.queue 0).length, (v.isOpen 0).toNat, 1⟩, pc, .ok (), [], []⟩

def step (batchCap : ℕ) (pc : Drain.Pc) (v : View T) (m : ℕ) : Option (Drain.Pc × Option (ℕ × ℕ)) :=
  (Drain.recvStep blank batchCap (load pc v) m).map fun s =>
    (s.pc, if s.taken.isEmpty then none else some (0, s.taken.length))

def Inv (pc : Drain.Pc) (v : View T) : Prop := pc = .returned → v.queue 0 = [] ∧ v.isOpen 0 = false

/-- what a step of the loop can do -/
theorem step_cases {batchCap m : ℕ} {pc pc' : Drain.Pc} {v : View T} {t : Option (ℕ × ℕ)}
    (h : step batchCap pc v m = some (pc', t)) :
    (∃ c, t = some (0, c) ∧ 0 < c ∧ c ≤ (v.queue 0).length ∧ pc' ≠ .returned) ∨
      (t = none ∧ pc'.rank < pc.rank ∧ (pc' = .returned → v.queue 0 = [] ∧ v.isOpen 0 = false)) := by
  obtain ⟨s', hs, heq⟩ := Option.map_eq_some_iff.1 h
  obtain ⟨hret, hcase⟩ := Drain.recvStep_cases hs
  cases hcase with
  | goto pc₁ hs₁ hpc hlt =>
    subst hs₁
    cases heq
    exact .inr ⟨rfl, hlt, fun hr => absurd hr hpc⟩
  | take c pc₁ hs₁ hpos hle hpc =>
    subst hs₁
    have hlen : ((load pc v).take blank c pc₁).taken.length = c := by
      show ([] ++ (v.queue 0).take c).length = c
      rw [List.nil_append, List.length_take]
      exact min_eq_left hle
    have hne : ((load pc v).take blank c pc₁).taken.isEmpty = false := by
      rw [List.isEmpty_eq_false_iff, ← List.length_pos_iff, hlen]
      exact hpos
    rw [hne, hlen] at heq
    cases heq
    exact .inl ⟨c, rfl, hpos, hle, hpc⟩
  | close hs₁ hsend hq =>
    subst hs₁
    cases heq
    refine .inr ⟨rfl, ?_, fun _ => ⟨hq, by simpa [load] using hsend⟩⟩
    have : pc ≠ .returned := hret
    cases pc <;> simp_all [Drain.St.close, Drain.Pc.rank]

end Single

open Single in
/-- the drain loop over one ring -/
def single (batchCap : ℕ) : Receiver 1 T where
  Pos := Drain.Pc
  start := Drain.top batchCap
  step := Single.step batchCap
  returned pc := decide (pc = .returned)
  Inv := Single.Inv
  rank := Drain.Pc.rank
  bound := 4
  start_inv := fun v h => absurd h (Drain.top_ne_returned batchCap)
  start_open := decide_eq_false (Drain.top_ne_returned batchCap)
  silent_inv := by
    intro p p' v m _ hs
    obtain ⟨c, ht, -⟩ | ⟨-, -, hr⟩ := step_cases hs
    · cases ht
    · exact hr
  take_inv := by
    intro p p' v m r c _ hs hr
    obtain ⟨c, -, -, -, hne⟩ | ⟨ht, -⟩ := step_cases hs
    · exact absurd hr hne
    · cases ht
  later_inv := by
    intro p v v' h hl hr
    obtain ⟨hq, ho⟩ := h hr
    obtain ⟨ho', hq'⟩ := hl 0 ho
    exact ⟨hq'.trans hq, ho'⟩
  legal := by
    intro p p' v m r c _ hs
    obtain ⟨c', ht, hpos, hle, hne⟩ | ⟨ht, -⟩ := step_cases hs
    · cases ht
      exact ⟨Nat.one_pos, hpos, hle, decide_eq_false hne⟩
    · cases ht
  finished := by
    intro p v h hr r hr1
    obtain rfl : r = 0 := by omega
    exact h (of_decide_eq_true hr)
  rests := by
    intro p v m hr
    rw [of_decide_eq_true hr]
    rfl
  waits := by
    intro p v m _ hs hr
    have hnone := Option.map_eq_none_iff.1 hs
    have hne := of_decide_eq_false hr
    cases p with
    | anchor =>
      obtain ⟨hq, ho⟩ := Drain.waits_of_anchor rfl hnone
      exact ⟨0, Nat.one_pos, hq, by simpa [load] using ho⟩
    | returned => exact absurd rfl hne
    | _ => cases hnone
  rank_lt := by
    intro p p' v m _ hs
    obtain ⟨c, ht, -⟩ | ⟨-, hlt, -⟩ := step_cases hs
    · cases ht
    · exact hlt
  rank_le := fun _ => Drain.rank_le _

/-! ## Shards -/

namespace Shards

variable {n cap : ℕ}

/-- the receiver at its place, with the rings as its shards -/
def load (p : Sharded.St T) (v : View T) : Sharded.St T where
  data := ⟨fun r => ⟨v.queue r, (v.queue r).length, (v.isOpen r).toNat, 1⟩, p.data.closed, p.data.openCount, v.queue, fun _ => []⟩
  cursor := p.cursor
  pc := p.pc
  drainedAtCall := false

/-- the shard a step has sunk from, and how much -/
def took (n : ℕ) (s : Sharded.St T) : Option (ℕ × ℕ) :=
  ((List.range n).find? fun i => !(s.data.sunk i).isEmpty).map fun i => (i, (s.data.sunk i).length)

/-- the loop: a pass, an anchor when it leaves a shard open, and again after an item; the flag says that it has returned -/
def step (n cap : ℕ) (p : Sharded.St T × Bool) (v : View T) (m : ℕ) : Option ((Sharded.St T × Bool) × Option (ℕ × ℕ)) :=
  if p.2 then none
  else match p.1.pc with
  | .idle none | .idle (some .item) => (Sharded.step n cap (load p.1 v) .callPass).map fun s => ((s, false), none)
  | .idle (some .more) => (Sharded.step n cap (load p.1 v) .callAnchor).map fun s => ((s, false), none)
  | .idle (some .eof) | .idle (some .closed) => some ((p.1, true), none)
  | _ => (Sharded.recvStep n cap (load p.1 v) m).map fun s => ((s, false), took n s)

def Inv (n : ℕ) (p : Sharded.St T × Bool) (v : View T) : Prop :=
  Sharded.Inv n (load p.1 v) ∧ (p.2 = true → Sharded.reported p.1)

def rank (n : ℕ) (p : Sharded.St T × Bool) : ℕ :=
  if p.2 then 0
  else match p.1.pc with
  | .idle none | .idle (some .item) => 4 * n + 5
  | .claim k => 3 * (n - k) + n + 4
  | .probe k => 3 * (n - k) + n + 3
  | .tryItem k => 3 * (n - k) + n + 2
  | .idle (some .more) => n + 3
  | .anchor k => n - k + 2
  | .idle (some .eof) | .idle (some .closed) => 1

/-- the receiver's marks fit any rings on which the marked ones are closed and empty -/
theorem inv_load {s : Sharded.St T} (h : Sharded.Inv n s) {v : View T}
    (hv : ∀ r, s.data.closed r = true → v.queue r = [] ∧ v.isOpen r = false) : Sharded.Inv n (load s v) where
  data := ⟨fun _ => rfl, fun r hr => ⟨by simp [load, (hv r hr).2], (hv r hr).1⟩, h.data.count⟩
  cursor := h.cursor
  place := h.place
  drained := fun hd => absurd hd Bool.false_ne_true

theorem marked {s : Sharded.St T} {v : View T} (h : Sharded.Inv n (load s v)) {r : ℕ} (hr : s.data.closed r = true) :
    v.queue r = [] ∧ v.isOpen r = false := by
  have hd := h.data.mark r hr
  exact ⟨hd.2, by simpa [load] using hd.1⟩

theorem took_none {s : Sharded.St T} (h : s.data.sunk = fun _ => []) : took n s = none := by
  simp [took, h]

theorem took_sink {p : Sharded.St T} {v : View T} {s : Sharded.St T} {i c : ℕ} (hi : i < n) (hpos : 0 < c)
    (hle : c ≤ (v.queue i).length) (h : s.data = (load p v).data.sink i c) : took n s = some (i, c) := by
  have hsunk : s.data.sunk = Function.update (fun _ => []) i ((v.queue i).take c) := by
    rw [h]
    simp [Sharded.Shards.sink, load]
  have hlen : ((v.queue i).take c).length = c := by
    rw [List.length_take]
    exact min_eq_left hle
  have hfind : ((List.range n).find? fun j => !(s.data.sunk j).isEmpty) = some i := by
    have hne : (!(s.data.sunk i).isEmpty) = true := by
      rw [hsunk, Function.update_self, Bool.not_eq_true', List.isEmpty_eq_false_iff, ← List.length_pos_iff, hlen]
      exact hpos
    obtain ⟨j, hj⟩ := Option.isSome_iff_exists.1 
      ((List.find?_isSome (p := fun j => !(s.data.sunk j).isEmpty)).2 ⟨i, List.mem_range.2 hi, hne⟩)
    have hp := List.find?_some hj
    by_cases hji : j = i
    · rw [hj, hji]
    · rw [hsunk, Function.update_of_ne hji] at hp
      simp at hp
  rw [took, hfind, hsunk]
  simp [hlen]

theorem inv_after {s : Sharded.St T} (h : Sharded.Inv n s) {v : View T}
    (hc : ∀ r, (s.data.chan r).queue = v.queue r ∧ (s.data.chan r).senders = (v.isOpen r).toNat) : Sharded.Inv n (load s v) := by
  apply inv_load h
  intro r hr
  have hd := h.data.mark r hr
  rw [Chan.drained, (hc r).1, (hc r).2] at hd
  exact ⟨hd.2, by simpa using hd.1⟩

theorem sink_sunk_ne {d : Sharded.Shards T} {i c : ℕ} (hpos : 0 < c) (hle : c ≤ (d.chan i).queue.length) :
    (d.sink i c).sunk ≠ d.sunk := by
  intro h
  have hi := congrArg List.length (congrFun h i)
  simp only [Sharded.Shards.sink, Function.update_self, List.length_append, List.length_take] at hi
  omega

/-- a step of a call that sinks nothing brings the loop closer to its return or to a wait -/
theorem recvStep_rank {s s' : Sharded.St T} {m : ℕ} (h : Sharded.Inv n s) (hs : Sharded.recvStep n cap s m = some s')
    (hsunk : s'.data.sunk = s.data.sunk) : rank n (s', false) < rank n (s, false) := by
  have hplace := h.place
  cases hpc : s.pc with
  | idle r => simp [Sharded.recvStep, hpc] at hs
  | claim k =>
    simp only [Sharded.PcInv, hpc] at hplace
    simp only [Sharded.recvStep, hpc] at hs
    split_ifs at hs with hkn hopen hc hcap hcl <;> cases hs
    · simp [rank, hpc]
    · simp [rank, hpc]
    · simp only [rank, hpc, Bool.false_eq_true, if_false]
      omega
    · simp only [rank, hpc, Bool.false_eq_true, if_false]
      omega
    · exact absurd hsunk (sink_sunk_ne hcl ((min_le_right m _).trans (min_le_right cap _)))
    · simp only [rank, hpc, Bool.false_eq_true, if_false]
      omega
  | probe k =>
    simp only [Sharded.PcInv, hpc] at hplace
    simp only [Sharded.recvStep, hpc] at hs
    split_ifs at hs <;> cases hs <;> simp only [rank, hpc, Bool.false_eq_true, if_false] <;> omega
  | tryItem k =>
    simp only [Sharded.PcInv, hpc] at hplace
    simp only [Sharded.recvStep, hpc] at hs
    split_ifs at hs with hq hsend hm <;> cases hs
    · simp only [rank, hpc, Bool.false_eq_true, if_false]
      omega
    · simp only [rank, hpc, Bool.false_eq_true, if_false]
      omega
    · simp only [rank, hpc, Bool.false_eq_true, if_false]
      omega
    · exact absurd hsunk (sink_sunk_ne Nat.one_pos (List.length_pos_iff.2 hq))
  | anchor k =>
    simp only [Sharded.PcInv, hpc] at hplace
    simp only [Sharded.recvStep, hpc] at hs
    split_ifs at hs with hkn hc hq hsend <;> cases hs
    · simp only [rank, hpc, Bool.false_eq_true, if_false]
      omega
    · simp only [rank, hpc, Bool.false_eq_true, if_false]
      omega
    · simp only [rank, hpc, Bool.false_eq_true, if_false]
      omega
    · exact absurd hsunk (sink_sunk_ne Nat.one_pos (List.length_pos_iff.2 hq))

/-- a step within a call -/
theorem call_cases {s : Sharded.St T} {v : View T} {m : ℕ} {p' : Sharded.St T × Bool} {t : Option (ℕ × ℕ)}
    (hinv : Sharded.Inv n (load s v))
    (hs : ((Sharded.recvStep n cap (load s v) m).map fun s => ((s, false), took n s)) = some (p', t)) :
    (t = none ∧ Inv n p' v ∧ rank n p' < rank n (s, false)) ∨
      ∃ r < n, ∃ c, t = some (r, c) ∧ 0 < c ∧ c ≤ (v.queue r).length ∧ p'.2 = false ∧ Inv n p' (v.take r c) := by
  obtain ⟨s', hstep, heq⟩ := Option.map_eq_some_iff.1 hs
  obtain ⟨hchan, hsunk⟩ | ⟨i, hi, c, hpos, hle, hdata⟩ := Sharded.recvStep_shards hinv hstep
  · rw [took_none hsunk] at heq
    cases heq
    refine .inl ⟨rfl, ⟨inv_after (Sharded.recvStep_inv hinv hstep) fun r => ?_, fun hb => absurd hb Bool.false_ne_true⟩, ?_⟩
    · rw [hchan]
      exact ⟨rfl, rfl⟩
    · show rank n _ < rank n (load s v, false)
      exact recvStep_rank hinv hstep hsunk
  · rw [took_sink hi hpos hle hdata] at heq
    cases heq
    refine .inr ⟨i, hi, c, rfl, hpos, hle, rfl, inv_after (Sharded.recvStep_inv hinv hstep) fun r => ?_,
      fun hb => absurd hb Bool.false_ne_true⟩
    by_cases hr : r = i
    · subst hr
      rw [hdata]
      simp [Sharded.Shards.sink, load, View.take, Chan.take]
    · rw [hdata]
      simp [Sharded.Shards.sink, load, View.take, Function.update_of_ne hr]

/-- what a step of the loop can do, and where it leaves the receiver -/
theorem step_cases {p p' : Sharded.St T × Bool} {v : View T} {m : ℕ} {t : Option (ℕ × ℕ)} (h : Inv n p v)
    (hs : step n cap p v m = some (p', t)) :
    (t = none ∧ Inv n p' v ∧ rank n p' < rank n p) ∨
      ∃ r < n, ∃ c, t = some (r, c) ∧ 0 < c ∧ c ≤ (v.queue r).length ∧ p'.2 = false ∧ Inv n p' (v.take r c) := by
  obtain ⟨s, b⟩ := p
  obtain ⟨hinv, -⟩ := h
  have hcall : ∀ {s' : Sharded.St T} {a : Sharded.Act T}, Sharded.step n cap (load s v) a = some s' →
      s'.data = (load s v).data → Inv n (s', false) v := by
    intro s' a hstep hdata
    refine ⟨inv_after (Sharded.step_inv hinv hstep) fun r => ?_, fun hb => absurd hb Bool.false_ne_true⟩
    rw [hdata]
    exact ⟨rfl, rfl⟩
  simp only [step] at hs
  split_ifs at hs with hb
  rw [Bool.not_eq_true] at hb
  subst hb
  split at hs
  case h_1 hpc =>
    obtain ⟨s', hstep, heq⟩ := Option.map_eq_some_iff.1 hs
    cases heq
    simp only [Sharded.step, load, hpc] at hstep
    cases hstep
    refine .inl ⟨rfl, hcall (a := .callPass) (by simp only [Sharded.step, load, hpc]) rfl, ?_⟩
    simp only [rank, hpc, Bool.false_eq_true, if_false]
    omega
  case h_2 hpc =>
    obtain ⟨s', hstep, heq⟩ := Option.map_eq_some_iff.1 hs
    cases heq
    simp only [Sharded.step, load, hpc] at hstep
    cases hstep
    refine .inl ⟨rfl, hcall (a := .callPass) (by simp only [Sharded.step, load, hpc]) rfl, ?_⟩
    simp only [rank, hpc, Bool.false_eq_true, if_false]
    omega
  case h_3 hpc =>
    obtain ⟨s', hstep, heq⟩ := Option.map_eq_some_iff.1 hs
    cases heq
    simp only [Sharded.step, load, hpc] at hstep
    cases hstep
    refine .inl ⟨rfl, hcall (a := .callAnchor) (by simp only [Sharded.step, load, hpc]) rfl, ?_⟩
    simp only [rank, hpc, Bool.false_eq_true, if_false]
    omega
  case h_4 hpc =>
    cases hs
    refine .inl ⟨rfl, ⟨hinv, fun _ => .inl hpc⟩, ?_⟩
    simp [rank, hpc]
  case h_5 hpc =>
    cases hs
    refine .inl ⟨rfl, ⟨hinv, fun _ => .inr hpc⟩, ?_⟩
    simp [rank, hpc]
  case h_6 => exact call_cases hinv hs

/-- a receiver that waits is parked on an open empty shard -/
theorem waits {p : Sharded.St T × Bool} {v : View T} {m : ℕ} (hn : 0 < n) (h : Inv n p v) (hs : step n cap p v m = none)
    (hr : p.2 = false) : ∃ r < n, v.queue r = [] ∧ v.isOpen r = true := by
  obtain ⟨s, b⟩ := p
  simp only [Shards.step, show b = false from hr, Bool.false_eq_true, if_false] at hs
  split at hs
  case h_1 hpc => simp [Sharded.step, load, hpc] at hs
  case h_2 hpc => simp [Sharded.step, load, hpc] at hs
  case h_3 hpc => simp [Sharded.step, load, hpc] at hs
  case h_4 => cases hs
  case h_5 => cases hs
  case h_6 h1 h2 h3 h4 h5 =>
    obtain ⟨r, hpc⟩ | ⟨k, hk, -, -, hq, ho⟩ := Sharded.idle_or_blocked h.1 (Option.map_eq_none_iff.1 hs)
    · rcases r with _ | r
      · exact absurd hpc h1
      · cases r with
        | item => exact absurd hpc h2
        | more => exact absurd hpc h3
        | eof => exact absurd hpc h4
        | closed => exact absurd hpc h5
    · exact ⟨_, Nat.mod_lt _ hn, hq, by simpa [load, Nat.pos_iff_ne_zero] using ho⟩

end Shards

open Shards in
/-- the drain loop over `n` shards; `cap` is the capacity of the batch scratch, 0 for the async receiver -/
def sharded (n : ℕ+) (cap : ℕ) : Receiver n T where
  Pos := Sharded.St T × Bool
  start := (Sharded.init n 0 fun _ => 0, false)
  step := Shards.step n cap
  returned p := p.2
  Inv := Shards.Inv n
  rank := Shards.rank n
  bound := 4 * n + 5
  start_inv := fun v => ⟨inv_load (Sharded.init_inv n.pos) fun r hr => absurd hr Bool.false_ne_true,
    fun hb => absurd hb Bool.false_ne_true⟩
  start_open := rfl
  silent_inv := by
    intro p p' v m h hs
    obtain ⟨-, hinv, -⟩ | ⟨r, -, c, ht, -⟩ := step_cases h hs
    · exact hinv
    · cases ht
  take_inv := by
    intro p p' v m r c h hs
    obtain ⟨ht, -⟩ | ⟨r', -, c', ht, -, -, -, hinv⟩ := step_cases h hs
    · cases ht
    · cases ht
      exact hinv
  later_inv := by
    intro p v v' h hl
    refine ⟨inv_load h.1 fun r hr => ?_, h.2⟩
    obtain ⟨hq, ho⟩ := marked h.1 hr
    obtain ⟨ho', hq'⟩ := hl r ho
    exact ⟨hq'.trans hq, ho'⟩
  legal := by
    intro p p' v m r c h hs
    obtain ⟨ht, -⟩ | ⟨r', hr, c', ht, hpos, hle, hret, -⟩ := step_cases h hs
    · cases ht
    · cases ht
      exact ⟨hr, hpos, hle, hret⟩
  finished := by
    intro p v h hr r hrn
    have hd := (h.1.eof (h.2 hr) r hrn).1
    exact ⟨hd.2, by simpa [load] using hd.1⟩
  rests := by
    intro p v m hr
    rw [Shards.step, if_pos hr]
  waits := waits n.pos
  rank_lt := by
    intro p p' v m h hs
    obtain ⟨-, -, hlt⟩ | ⟨r, -, c, ht, -⟩ := step_cases h hs
    · exact hlt
    · cases ht
  rank_le := by
    intro p v h
    obtain ⟨s, b⟩ := p
    simp only [Shards.rank]
    split_ifs
    · exact Nat.zero_le _
    · split <;> omega

end YouPipe.Stream
