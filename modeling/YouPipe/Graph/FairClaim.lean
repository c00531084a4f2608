/-
The fan-in of a graph worker over its whole life (`FanIn` in `graph/fanin.rs`, `AsyncFanIn` in `graph/async_exec.rs`). The steps of
a claim are those of `Graph.Worker`: the round over the open inputs, the blocking anchors and the marks they leave. Here the
fan-in stands alone between its `n` inputs and a client that claims again and again, also after the end of the stream. Between
any two steps upstream workers may send or drop out and sibling workers may take items from the same inputs.

The pre-anchor spin repeats the round at most as often as its budget allows, which its clock may cut short; the async fan-in has
none, takes one item per claim and polls the inputs one after the other in its anchor (`FirstReady`). `popped` logs what was taken
from an input, by this fan-in (`true`) or by a sibling, `claims` what each successful claim handed out, `missed` the polls of a
round that came back without an item.

- `poll_moves`: what a step can do, for both fan-ins.
- `run_inv`: every reachable state keeps the books (`Inv`).
- `poll_blind`: what stands in a closed input does not matter.
-/
import Mathlib.Tactic
import YouPipe.Core.Channel
import YouPipe.Core.Machine
import YouPipe.Core.RoundRobin
import YouPipe.Graph.Worker

namespace YouPipe.FairClaim

open YouPipe.Channel YouPipe.RoundRobin YouPipe.Graph

variable {T : Type}

/-! ## Model -/

inductive Kind where
  | sync (claimCap : ℕ)
  | async
deriving DecidableEq, Repr

namespace Kind

/-- an async claim takes single items -/
def claimCap : Kind → ℕ
  | .sync cap => cap
  | .async => 0

/-- how often a claim may repeat its round before it parks -/
def spins : Kind → ℕ → ℕ
  | .sync _, budget => budget
  | .async, _ => 0

end Kind

structure St (T : Type) where
  worker : Worker ℕ T
  chan : ℕ → Chan T
  spins : ℕ
  /-- the inputs that `FirstReady` has polled -/
  polled : ℕ
  sent : ℕ → List T
  popped : ℕ → List (Bool × T)
  claims : List (ℕ × List T)
  missed : ℕ → ℕ

/-- somebody sends, drops a sender or takes an item of an input; the client calls `claim`; or the claim takes its next step, `m`
being what the channels, the clock or the select choose -/
inductive Act (T : Type) where
  | send (i : ℕ) (x : T)
  | close (i : ℕ)
  | steal (i : ℕ)
  | call (budget : ℕ)
  | poll (m : ℕ)

/-- a step of the claim -/
def Act.own : Act T → Bool
  | .poll _ => true
  | _ => false

/-- a step of the async anchor that may overlook an item of a live input -/
def Act.blind (kind : Kind) : Act T → Bool
  | .poll m => kind == .async && m == 0
  | _ => false

/-- no claim under way -/
def returned : Pc T → Bool
  | .work _ _ => true
  | .done => true
  | _ => false

def atRound : Pc T → Bool
  | .round _ => true
  | _ => false

def init (n : ℕ) (cap senders : ℕ → ℕ) : St T where
  worker := ⟨FanIn.new (List.range n), [], .work [] []⟩
  chan i := ⟨[], cap i, senders i, 1⟩
  spins := 0
  polled := 0
  sent _ := []
  popped _ := []
  claims := []
  missed _ := 0

namespace St

def view (s : St T) : View ℕ T where
  queue i := (s.chan i).queue
  cap i := (s.chan i).cap
  sender i := decide (0 < (s.chan i).senders)
  receiver _ := true

/-- the fan-in as the steps of `Graph.Worker` see it -/
def spawn (n : ℕ) (kind : Kind) : Spawn ℕ T := ⟨List.range n, [], .move, .sink, kind.claimCap, false⟩

def move (s : St T) (w : Worker ℕ T) : St T := { s with worker := w }

/-- a claim took the `m` oldest items of input `i` -/
def take (s : St T) (w : Worker ℕ T) (i m : ℕ) : St T :=
  { s with
    worker := w
    chan := Function.update s.chan i ((s.chan i).take m)
    polled := 0
    popped := Function.update s.popped i (s.popped i ++ ((s.chan i).queue.take m).map (Prod.mk true))
    claims := s.claims ++ [(i, (s.chan i).queue.take m)] }

def apply (s : St T) (w : Worker ℕ T) : Effect ℕ T → St T
  | .take i m => s.take w i m
  | _ => s.move w

/-- a round that goes on has found no item -/
def note (s : St T) (i : ℕ) : St T :=
  if atRound s.worker.pc then { s with missed := Function.update s.missed i (s.missed i + 1) } else s

end St

/-- the async anchor: `FirstReady` polls the open inputs in order; when all are pending it is woken and starts again -/
def firstReady (n : ℕ) (s : St T) (m : ℕ) : Option (St T) :=
  let fanin := s.worker.fanin
  if fanin.openCount = 0 then some (s.move (s.worker.goto .done))
  else if n ≤ s.polled then some { s with polled := 0 }
  else if fanin.closed (fanin.place s.polled) = true then some { s with polled := s.polled + 1 }
  else
    let i := fanin.place s.polled
    match (s.chan i).queue with
    | [] =>
      if 0 < (s.chan i).senders then some { s with polled := s.polled + 1 }
      else some { s.move (s.worker.markInput i .anchor) with polled := 0 }
    | x :: _ =>
      if m = 0 ∧ 0 < (s.chan i).senders then some { s with polled := s.polled + 1 }
      else some (s.take (s.worker.claimed i [x]) i 1)

/-- the next step of a claim -/
def poll (n : ℕ) (kind : Kind) (s : St T) (m : ℕ) : Option (St T) :=
  match s.worker.pc with
  | .round k =>
    if n ≤ k ∧ 0 < s.spins ∧ m ≠ 0 then some { s.move (s.worker.goto (.round 0)) with spins := s.spins - 1 }
    else (s.worker.roundStep (St.spawn n kind) s.view m k).map fun r => s.apply r.1 r.2
  | .probe k => (s.worker.probeStep s.view k).map fun r => (s.apply r.1 r.2).note (s.worker.fanin.place k)
  | .tryItem k => (s.worker.tryItemStep s.view m k).map fun r => (s.apply r.1 r.2).note (s.worker.fanin.place k)
  | .anchor =>
    match kind with
    | .sync _ => (s.worker.anchorStep s.view m).map fun r => s.apply r.1 r.2
    | .async => firstReady n s m
  | .single k => (s.worker.singleStep s.view k).map fun r => s.apply r.1 r.2
  | _ => none

def step (n : ℕ) (kind : Kind) (s : St T) : Act T → Option (St T)
  | .send i x =>
    if i < n ∧ 0 < (s.chan i).senders ∧ ¬ (s.chan i).full then
      some { s with
        chan := Function.update s.chan i ((s.chan i).push x)
        sent := Function.update s.sent i (s.sent i ++ [x]) }
    else none
  | .close i =>
    if i < n ∧ 0 < (s.chan i).senders then some { s with chan := Function.update s.chan i (s.chan i).dropSender } else none
  | .steal i =>
    match (s.chan i).queue with
    | [] => none
    | x :: _ => if n ≤ i then none else some { s with
        chan := Function.update s.chan i ((s.chan i).take 1)
        popped := Function.update s.popped i (s.popped i ++ [(false, x)]) }
  | .call budget =>
    if returned s.worker.pc then
      some { s.move (s.worker.goto (.round 0)) with spins := kind.spins budget, polled := 0 }
    else none
  | .poll m => poll n kind s m

def run (n : ℕ) (kind : Kind) (s : St T) (acts : List (Act T)) : Option (St T) := acts.foldlM (step n kind) s

@[simp] theorem apply_worker (s : St T) (w : Worker ℕ T) (eff : Effect ℕ T) : (s.apply w eff).worker = w := by
  cases eff <;> rfl

@[simp] theorem note_worker (s : St T) (i : ℕ) : (s.note i).worker = s.worker := by
  unfold St.note
  split <;> rfl

@[simp] theorem note_spins (s : St T) (i : ℕ) : (s.note i).spins = s.spins := by
  unfold St.note
  split <;> rfl

@[simp] theorem note_claims (s : St T) (i : ℕ) : (s.note i).claims = s.claims := by
  unfold St.note
  split <;> rfl

@[simp] theorem note_chan (s : St T) (i : ℕ) : (s.note i).chan = s.chan := by
  unfold St.note
  split <;> rfl

/-! ## Steps -/

/-- what a step of a claim can do; a blind one may pass an item of a live input -/
inductive Moves (n : ℕ) (blind : Bool) (s : St T) : St T → Prop where
  /-- the round -/
  | restart (k : ℕ) (hpc : s.worker.pc = .round k) (hk : n ≤ k) (hspin : 0 < s.spins) :
      Moves n blind s { s.move (s.worker.goto (.round 0)) with spins := s.spins - 1 }
  | skip (k : ℕ) (hpc : s.worker.pc = .round k) (hk : k < n) (hc : s.worker.fanin.closed (s.worker.fanin.place k) = true) :
      Moves n blind s (s.move (s.worker.goto (.round (k + 1))))
  | look (k : ℕ) (pc : Pc T) (hpc : s.worker.pc = .round k) (hpc' : pc = .probe k ∨ pc = .tryItem k) (hk : k < n)
      (hc : s.worker.fanin.closed (s.worker.fanin.place k) = false) : Moves n blind s (s.move (s.worker.goto pc))
  | gone (k : ℕ) (hpc : s.worker.pc = .probe k) (hs : (s.chan (s.worker.fanin.place k)).senders = 0) :
      Moves n blind s (s.move (s.worker.goto (.tryItem k)))
  | empty (k : ℕ) (hpc : s.worker.pc = .probe k ∨ s.worker.pc = .tryItem k)
      (hs : 0 < (s.chan (s.worker.fanin.place k)).senders) :
      Moves n blind s ((s.move (s.worker.goto (.round (k + 1)))).note (s.worker.fanin.place k))
  | closed (k : ℕ) (hpc : s.worker.pc = .tryItem k) (hd : (s.chan (s.worker.fanin.place k)).drained) :
      Moves n blind s ((s.move (s.worker.markInput (s.worker.fanin.place k) (.round (k + 1)))).note (s.worker.fanin.place k))
  | park (k : ℕ) (pc : Pc T) (hpc : s.worker.pc = .round k) (hk : n ≤ k) (hopen : s.worker.fanin.openCount ≠ 0)
      (hpc' : pc = .anchor ∨ pc = .single 0 ∧ s.worker.fanin.openCount = 1) : Moves n blind s (s.move (s.worker.goto pc))
  | eof (hpc : (∃ k, s.worker.pc = .round k ∧ n ≤ k) ∨ s.worker.pc = .anchor) (hopen : s.worker.fanin.openCount = 0) :
      Moves n blind s (s.move (s.worker.goto .done))
  /-- a claim succeeds, wherever it is -/
  | take (k m : ℕ) (hpc : s.worker.pc = .round k ∨ s.worker.pc = .tryItem k ∨ s.worker.pc = .anchor ∨ s.worker.pc = .single k)
      (hk : k < n) (hc : s.worker.fanin.closed (s.worker.fanin.place k) = false) (hm : 0 < m)
      (hq : m ≤ (s.chan (s.worker.fanin.place k)).queue.length) :
      Moves n blind s (s.take (s.worker.claimed (s.worker.fanin.place k) ((s.chan (s.worker.fanin.place k)).queue.take m))
        (s.worker.fanin.place k) m)
  /-- the anchors -/
  | pending (hpc : s.worker.pc = .anchor) (hp : s.polled < n)
      (hc : s.worker.fanin.closed (s.worker.fanin.place s.polled) = true ∨
        0 < (s.chan (s.worker.fanin.place s.polled)).senders ∧
          ((s.chan (s.worker.fanin.place s.polled)).queue = [] ∨ blind = true)) :
      Moves n blind s { s with polled := s.polled + 1 }
  | wake (hpc : s.worker.pc = .anchor) (hp : n ≤ s.polled) (hopen : s.worker.fanin.openCount ≠ 0) :
      Moves n blind s { s with polled := 0 }
  | drop (k polled : ℕ) (hpc : s.worker.pc = .anchor) (hk : k < n)
      (hc : s.worker.fanin.closed (s.worker.fanin.place k) = false) (hd : (s.chan (s.worker.fanin.place k)).drained) :
      Moves n blind s { s.move (s.worker.markInput (s.worker.fanin.place k) .anchor) with polled := polled }
  | ended (k : ℕ) (hpc : s.worker.pc = .single k) (hk : n ≤ k) : Moves n blind s (s.move (s.worker.goto .done))
  | pass (k : ℕ) (hpc : s.worker.pc = .single k) (hk : k < n)
      (hc : s.worker.fanin.closed (s.worker.fanin.place k) = true) : Moves n blind s (s.move (s.worker.goto (.single (k + 1))))
  | lost (k : ℕ) (hpc : s.worker.pc = .single k) (hk : k < n)
      (hc : s.worker.fanin.closed (s.worker.fanin.place k) = false) (hd : (s.chan (s.worker.fanin.place k)).drained) :
      Moves n blind s (s.move (s.worker.markInput (s.worker.fanin.place k) (.single (k + 1))))

/-- where a fan-in can be -/
def PlaceOk (n : ℕ) (w : Worker ℕ T) : Prop :=
  match w.pc with
  | .probe k => k < n ∧ w.fanin.closed (w.fanin.place k) = false
  | .tryItem k => k < n ∧ w.fanin.closed (w.fanin.place k) = false
  | .single k => w.fanin.openCount ≤ 1 ∧ ∀ j < k, w.fanin.closed (w.fanin.place j) = true
  | .done => ∀ i < n, w.fanin.closed i = true
  | .round _ => True
  | .anchor => True
  | .work _ _ => True
  | _ => False

section Steps

variable {n : ℕ} {kind : Kind} {blind : Bool} {s s' : St T} {m : ℕ}

theorem place_lt {w : Worker ℕ T} (hr : w.fanin.rxs = List.range n) {k : ℕ} (hk : k < n) : w.fanin.place k < n := by
  rw [FanIn.place, hr, List.length_range]
  exact Nat.mod_lt _ (Nat.zero_lt_of_lt hk)

theorem ring_at {w : Worker ℕ T} (hr : w.fanin.rxs = List.range n) {k : ℕ} (hk : k < n) :
    w.fanin.rxs[w.fanin.place k]? = some (w.fanin.place k) := by
  rw [List.getElem?_eq_some_iff]
  refine ⟨by rw [hr, List.length_range]; exact place_lt hr hk, ?_⟩
  simp [hr]

theorem drained_of {c : Chan T} (hq : c.queue = []) (hs : ¬ 0 < c.senders) : c.drained := ⟨Nat.eq_zero_of_not_pos hs, hq⟩

/-- a claim of one item -/
theorem Moves.item {k : ℕ} {x : T} {rest : List T}
    (hpc : s.worker.pc = .round k ∨ s.worker.pc = .tryItem k ∨ s.worker.pc = .anchor ∨ s.worker.pc = .single k) (hk : k < n)
    (hc : s.worker.fanin.closed (s.worker.fanin.place k) = false) (hq : (s.chan (s.worker.fanin.place k)).queue = x :: rest) :
    Moves n blind s (s.take (s.worker.claimed (s.worker.fanin.place k) [x]) (s.worker.fanin.place k) 1) := by
  have h : Moves n blind s (s.take (s.worker.claimed (s.worker.fanin.place k)
      ((s.chan (s.worker.fanin.place k)).queue.take 1)) (s.worker.fanin.place k) 1) :=
    .take k 1 hpc hk hc Nat.one_pos (by rw [hq]; simp)
  rwa [hq, List.take_succ_cons, List.take_zero] at h

theorem round_moves {k : ℕ} (hr : s.worker.fanin.rxs = List.range n) (hpc : s.worker.pc = .round k) (hs : poll n kind s m = some s') :
    Moves n (Act.blind kind (.poll m : Act T)) s s' := by
  simp only [poll, hpc] at hs
  split_ifs at hs with hspin
  · cases hs
    exact .restart k hpc hspin.1 hspin.2.1
  simp only [Worker.roundStep, hr, List.length_range, St.spawn, Bool.false_eq_true, false_and, if_false] at hs
  split_ifs at hs with hk hz hone hc hcap
  · cases hs
    exact .eof (Or.inl ⟨k, hpc, hk⟩) hz
  · cases hs
    exact .park k _ hpc hk hz (Or.inr ⟨rfl, hone⟩)
  · cases hs
    exact .park k _ hpc hk hz (Or.inl rfl)
  · cases hs
    exact .skip k hpc (Nat.lt_of_not_le hk) hc
  · cases hs
    exact .look k _ hpc (Or.inr rfl) (Nat.lt_of_not_le hk) (Bool.eq_false_iff.2 hc)
  · have hlt := Nat.lt_of_not_le hk
    rw [← hr, ring_at hr hlt] at hs
    simp only [St.view] at hs
    by_cases hn : 0 < min m (min kind.claimCap (s.chan (s.worker.fanin.place k)).queue.length)
    · simp only [hn, if_true] at hs
      cases hs
      exact .take k _ (Or.inl hpc) hlt (Bool.eq_false_iff.2 hc) hn ((min_le_right _ _).trans (min_le_right _ _))
    · simp only [hn, if_false] at hs
      cases hs
      exact .look k _ hpc (Or.inl rfl) hlt (Bool.eq_false_iff.2 hc)

theorem probe_moves {k : ℕ} (hr : s.worker.fanin.rxs = List.range n) (hp : PlaceOk n s.worker) (hpc : s.worker.pc = .probe k)
    (hs : poll n kind s m = some s') : Moves n (Act.blind kind (.poll m : Act T)) s s' := by
  simp only [PlaceOk, hpc] at hp
  simp only [poll, hpc, Worker.probeStep, ring_at hr hp.1, St.view, decide_eq_true_eq] at hs
  split_ifs at hs with hsend
  · cases hs
    exact .empty k (Or.inl hpc) hsend
  · cases hs
    exact .gone k hpc (Nat.eq_zero_of_not_pos hsend)

theorem tryItem_moves {k : ℕ} (hr : s.worker.fanin.rxs = List.range n) (hp : PlaceOk n s.worker) (hpc : s.worker.pc = .tryItem k)
    (hs : poll n kind s m = some s') : Moves n (Act.blind kind (.poll m : Act T)) s s' := by
  simp only [PlaceOk, hpc] at hp
  simp only [poll, hpc, Worker.tryItemStep, ring_at hr hp.1, St.view, decide_eq_true_eq] at hs
  split at hs
  · next hq =>
    split_ifs at hs with hsend
    · cases hs
      exact .empty k (Or.inr hpc) hsend
    · cases hs
      exact .closed k hpc (drained_of hq hsend)
  · next x rest hq =>
    split_ifs at hs with hsend
    · cases hs
      exact .empty k (Or.inr hpc) hsend.2
    · cases hs
      exact .item (Or.inr (Or.inl hpc)) hp.1 hp.2 hq

theorem anchor_moves (hr : s.worker.fanin.rxs = List.range n) (hpc : s.worker.pc = .anchor)
    (hs : (s.worker.anchorStep s.view m).map (fun r => s.apply r.1 r.2) = some s') : Moves n blind s s' := by
  simp only [Worker.anchorStep, hr, List.length_range] at hs
  split_ifs at hs with hz hm
  · cases hs
    exact .eof (Or.inr hpc) hz
  · cases hs
  rw [not_or] at hm
  have hlt := Nat.lt_of_not_le hm.1
  rw [← hr, ring_at hr hlt] at hs
  simp only [St.view, decide_eq_true_eq] at hs
  split at hs
  · next hq =>
    split_ifs at hs with hsend
    · cases hs
    · cases hs
      exact .drop m s.polled hpc hlt (Bool.eq_false_iff.2 hm.2) (drained_of hq hsend)
  · next x rest hq =>
    cases hs
    exact .item (Or.inr (Or.inr (Or.inl hpc))) hlt (Bool.eq_false_iff.2 hm.2) hq

theorem firstReady_moves (hpc : s.worker.pc = .anchor) (hs : firstReady n s m = some s') : Moves n (Act.blind .async (.poll m : Act T)) s s' := by
  unfold firstReady at hs
  by_cases hz : s.worker.fanin.openCount = 0
  · rw [if_pos hz] at hs
    cases hs
    exact .eof (Or.inr hpc) hz
  rw [if_neg hz] at hs
  by_cases hp : n ≤ s.polled
  · rw [if_pos hp] at hs
    cases hs
    exact .wake hpc hp hz
  rw [if_neg hp] at hs
  have hlt := Nat.lt_of_not_le hp
  by_cases hc : s.worker.fanin.closed (s.worker.fanin.place s.polled) = true
  · rw [if_pos hc] at hs
    cases hs
    exact .pending hpc hlt (Or.inl hc)
  rw [if_neg hc] at hs
  have hopen := Bool.eq_false_iff.2 hc
  rcases hq : (s.chan (s.worker.fanin.place s.polled)).queue with _ | ⟨x, rest⟩
  · simp only [hq] at hs
    split_ifs at hs with hsend
    · cases hs
      exact .pending hpc hlt (Or.inr ⟨hsend, Or.inl hq⟩)
    · cases hs
      exact .drop s.polled 0 hpc hlt hopen (drained_of hq hsend)
  · simp only [hq] at hs
    split_ifs at hs with hsend
    · cases hs
      exact .pending hpc hlt (Or.inr ⟨hsend.2, Or.inr (by simp [Act.blind, hsend.1])⟩)
    · cases hs
      exact .item (Or.inr (Or.inr (Or.inl hpc))) hlt hopen hq

theorem single_moves {k : ℕ} (hr : s.worker.fanin.rxs = List.range n) (hpc : s.worker.pc = .single k)
    (hs : poll n kind s m = some s') : Moves n (Act.blind kind (.poll m : Act T)) s s' := by
  simp only [poll, hpc, Worker.singleStep, hr, List.length_range] at hs
  split_ifs at hs with hk hc
  · cases hs
    exact .ended k hpc hk
  · cases hs
    exact .pass k hpc (Nat.lt_of_not_le hk) hc
  have hlt := Nat.lt_of_not_le hk
  rw [← hr, ring_at hr hlt] at hs
  simp only [St.view, decide_eq_true_eq] at hs
  split at hs
  · next hq =>
    split_ifs at hs with hsend
    · cases hs
    · cases hs
      exact .lost k hpc hlt (Bool.eq_false_iff.2 hc) (drained_of hq hsend)
  · next x rest hq =>
    cases hs
    exact .item (Or.inr (Or.inr (Or.inr hpc))) hlt (Bool.eq_false_iff.2 hc) hq

/-- **Steps.** Each step of a claim is one of the moves, for both fan-ins. -/
theorem poll_moves (hr : s.worker.fanin.rxs = List.range n) (hp : PlaceOk n s.worker) (hs : poll n kind s m = some s') :
    Moves n (Act.blind kind (.poll m : Act T)) s s' := by
  cases hpc : s.worker.pc with
  | round k => exact round_moves hr hpc hs
  | probe k => exact probe_moves hr hp hpc hs
  | tryItem k => exact tryItem_moves hr hp hpc hs
  | anchor =>
    simp only [poll, hpc] at hs
    cases kind with
    | sync cap => exact anchor_moves hr hpc hs
    | async => exact firstReady_moves hpc hs
  | single k => exact single_moves hr hpc hs
  | _ => simp [poll, hpc] at hs

end Steps

/-! ## The invariant -/

/-- what this fan-in took from an input, in order -/
def own (log : List (Bool × T)) : List T := (log.filter Prod.fst).map Prod.snd

/-- what the claims handed out of input `i`, in order -/
def handed (claims : List (ℕ × List T)) (i : ℕ) : List T := (claims.filter fun c => c.1 = i).flatMap Prod.snd

structure Inv (n : ℕ) (s : St T) : Prop where
  rxs : s.worker.fanin.rxs = List.range n
  conserve : ∀ i, s.sent i = (s.popped i).map Prod.snd ++ (s.chan i).queue
  handed : ∀ i, own (s.popped i) = handed s.claims i
  nonempty : ∀ c ∈ s.claims, c.1 < n ∧ c.2 ≠ []
  mark : ∀ i, s.worker.fanin.closed i = true → (s.chan i).drained
  count : s.worker.fanin.openCount = (unmarked n s.worker.fanin.closed).card
  cursor : 0 < n → s.worker.fanin.cursor < n
  place : PlaceOk n s.worker

section Invariant

variable {n : ℕ} {kind : Kind} {blind : Bool} {s s' : St T} {m : ℕ}

theorem init_inv (n : ℕ) (cap senders : ℕ → ℕ) : Inv n (init n cap senders : St T) where
  rxs := rfl
  conserve _ := rfl
  handed _ := rfl
  nonempty := by simp [init]
  mark := by simp [init, FanIn.new]
  count := by simp [init, FanIn.new, unmarked]
  cursor h := h
  place := trivial

namespace Inv

theorem all_closed (h : Inv n s) (hz : s.worker.fanin.openCount = 0) : ∀ i < n, s.worker.fanin.closed i = true := by
  rw [h.count, card_unmarked_eq_zero] at hz
  exact hz

/-- a step that only moves on -/
theorem goto (h : Inv n s) (pc : Pc T) (hp : PlaceOk n (s.worker.goto pc)) (spins polled : ℕ) (missed : ℕ → ℕ) :
    Inv n { s with worker := s.worker.goto pc, spins := spins, polled := polled, missed := missed } where
  rxs := h.rxs
  conserve := h.conserve
  handed := h.handed
  nonempty := h.nonempty
  mark := h.mark
  count := h.count
  cursor := h.cursor
  place := hp

/-- an input reports closed -/
theorem markInput (h : Inv n s) {i : ℕ} (hi : i < n) (hc : s.worker.fanin.closed i = false) (hd : (s.chan i).drained) (pc : Pc T)
    (hp : PlaceOk n (s.worker.markInput i pc)) (polled : ℕ) (missed : ℕ → ℕ) :
    Inv n { s with worker := s.worker.markInput i pc, polled := polled, missed := missed } where
  rxs := h.rxs
  conserve := h.conserve
  handed := h.handed
  nonempty := h.nonempty
  mark j hj := by
    by_cases hij : j = i
    · subst hij
      exact hd
    · simp only [Worker.markInput, FanIn.mark, Function.update_of_ne hij] at hj
      exact h.mark j hj
  count := by
    simp only [Worker.markInput, FanIn.mark]
    rw [card_unmarked_mark hi hc, h.count]
  cursor := h.cursor
  place := hp

/-- an open input gives items -/
theorem take (h : Inv n s) {i : ℕ} (hi : i < n) (hc : s.worker.fanin.closed i = false) (hm : 0 < m)
    (hq : m ≤ (s.chan i).queue.length) (xs : List T) : Inv n (s.take (s.worker.claimed i xs) i m) where
  rxs := h.rxs
  conserve j := by
    by_cases hij : j = i
    · subst hij
      simp only [St.take, Function.update_self, Chan.take_queue, List.map_append, List.map_map, List.append_assoc]
      rw [h.conserve j]
      simp [Function.comp_def]
    · simp only [St.take, Function.update_of_ne hij]
      exact h.conserve j
  handed j := by
    have hown : FairClaim.handed (s.claims ++ [(i, (s.chan i).queue.take m)]) j =
        FairClaim.handed s.claims j ++ if i = j then (s.chan i).queue.take m else [] := by
      simp only [FairClaim.handed, List.filter_append, List.flatMap_append]
      congr 1
      split_ifs with hij
      · simp [hij]
      · simp [hij]
    simp only [St.take, hown]
    by_cases hij : j = i
    · subst hij
      have hall : ((s.chan j).queue.take m).map (Prod.mk true) = (((s.chan j).queue.take m).map (Prod.mk true)).filter Prod.fst := by
        rw [List.filter_eq_self.2]
        intro e he
        obtain ⟨x, -, rfl⟩ := List.mem_map.1 he
        rfl
      simp only [Function.update_self, if_true, ← h.handed j, own, List.filter_append, List.map_append, ← hall, List.map_map]
      simp [Function.comp_def]
    · rw [Function.update_of_ne hij, if_neg fun e => hij e.symm, List.append_nil]
      exact h.handed j
  nonempty c hc' := by
    simp only [St.take, List.mem_append, List.mem_singleton] at hc'
    rcases hc' with hc' | rfl
    · exact h.nonempty c hc'
    · refine ⟨hi, ?_⟩
      intro hnil
      have hlen := congrArg List.length hnil
      rw [List.length_take, List.length_nil] at hlen
      omega
  mark j hj := by
    have hij : j ≠ i := by
      rintro rfl
      rw [show s.worker.fanin.closed j = true from hj] at hc
      cases hc
    simp only [St.take, Function.update_of_ne hij]
    exact h.mark j hj
  count := h.count
  cursor hn := by
    simp only [St.take, Worker.claimed, FanIn.rotate, h.rxs, List.length_range]
    exact Nat.mod_lt _ hn
  place := trivial

end Inv

/-- the places before the current one stay closed when the current one is marked -/
theorem walked_mark {w : Worker ℕ T} {k : ℕ} (hw : ∀ j < k, w.fanin.closed (w.fanin.place j) = true) (pc : Pc T) :
    ∀ j < k + 1, (w.markInput (w.fanin.place k) pc).fanin.closed ((w.markInput (w.fanin.place k) pc).fanin.place j) = true := by
  intro j hj
  change Function.update w.fanin.closed (w.fanin.place k) true (w.fanin.place j) = true
  by_cases hjk : w.fanin.place j = w.fanin.place k
  · rw [hjk, Function.update_self]
  · rw [Function.update_of_ne hjk]
    apply hw
    rcases Nat.lt_succ_iff_lt_or_eq.1 hj with h | rfl
    · exact h
    · exact absurd rfl hjk

/-- a walk over all places has closed every input -/
theorem walked_all (h : Inv n s) {k : ℕ} (hk : n ≤ k) (hw : ∀ j < k, s.worker.fanin.closed (s.worker.fanin.place j) = true) :
    s.worker.fanin.openCount = 0 := by
  rw [h.count, card_unmarked_eq_zero]
  intro i hi
  have hwalk : ∀ j < n, s.worker.fanin.closed ((s.worker.fanin.cursor + j) % n) = true := by
    intro j hj
    have hj' := hw j (Nat.lt_of_lt_of_le hj hk)
    rwa [FanIn.place, h.rxs, List.length_range] at hj'
  exact all_closed_of_walk (h.cursor (Nat.zero_lt_of_lt hi)) hwalk i hi

theorem moves_inv (h : Inv n s) (hm : Moves n blind s s') : Inv n s' := by
  have hp := h.place
  cases hm with
  | restart k hpc hk hspin => exact h.goto (.round 0) trivial _ _ _
  | skip k hpc hk hc => exact h.goto (.round (k + 1)) trivial _ _ _
  | look k pc hpc hpc' hk hc =>
    rcases hpc' with rfl | rfl
    · exact h.goto (.probe k) ⟨hk, hc⟩ _ _ _
    · exact h.goto (.tryItem k) ⟨hk, hc⟩ _ _ _
  | gone k hpc hs =>
    simp only [PlaceOk, hpc] at hp
    exact h.goto (.tryItem k) hp _ _ _
  | empty k hpc hs => exact h.goto (.round (k + 1)) trivial _ _ _
  | closed k hpc hd =>
    simp only [PlaceOk, hpc] at hp
    exact h.markInput (place_lt h.rxs hp.1) hp.2 hd (.round (k + 1)) trivial _ _
  | park k pc hpc hk hopen hpc' =>
    rcases hpc' with rfl | ⟨rfl, hone⟩
    · exact h.goto .anchor trivial _ _ _
    · exact h.goto (.single 0) ⟨hone.le, fun j hj => absurd hj (Nat.not_lt_zero j)⟩ _ _ _
  | eof hpc hopen => exact h.goto .done (h.all_closed hopen) _ _ _
  | take k m hpc hk hc hm hq => exact h.take (place_lt h.rxs hk) hc hm hq _
  | pending hpc hlt hc => exact h.goto s.worker.pc hp s.spins (s.polled + 1) s.missed
  | wake hpc hlt hopen => exact h.goto s.worker.pc hp s.spins 0 s.missed
  | drop k polled hpc hk hc hd => exact h.markInput (place_lt h.rxs hk) hc hd .anchor trivial _ _
  | ended k hpc hk =>
    simp only [PlaceOk, hpc] at hp
    exact h.goto .done (h.all_closed (walked_all h hk hp.2)) _ _ _
  | pass k hpc hk hc =>
    simp only [PlaceOk, hpc] at hp
    refine h.goto (.single (k + 1)) ⟨hp.1, ?_⟩ _ _ _
    intro j hj
    rcases Nat.lt_succ_iff_lt_or_eq.1 hj with hlt | rfl
    · exact hp.2 j hlt
    · exact hc
  | lost k hpc hk hc hd =>
    simp only [PlaceOk, hpc] at hp
    exact h.markInput (place_lt h.rxs hk) hc hd (.single (k + 1)) ⟨(Nat.sub_le _ _).trans hp.1, walked_mark hp.2 _⟩ _ _

/-- the others change input `i`, which this fan-in has not seen closed -/
theorem Inv.others (h : Inv n s) (i : ℕ) (c : Chan T) (sent : List T) (popped : List (Bool × T))
    (hsent : sent = popped.map Prod.snd ++ c.queue) (hown : own popped = own (s.popped i))
    (hlive : ¬ (s.chan i).drained) :
    Inv n { s with
      chan := Function.update s.chan i c
      sent := Function.update s.sent i sent
      popped := Function.update s.popped i popped } where
  rxs := h.rxs
  conserve j := by
    by_cases hij : j = i
    · subst hij
      simpa only [Function.update_self] using hsent
    · simp only [Function.update_of_ne hij]
      exact h.conserve j
  handed j := by
    by_cases hij : j = i
    · subst hij
      simpa only [Function.update_self] using hown.trans (h.handed j)
    · simp only [Function.update_of_ne hij]
      exact h.handed j
  nonempty := h.nonempty
  mark j hj := by
    have hij : j ≠ i := by
      rintro rfl
      exact hlive (h.mark j hj)
    simp only [Function.update_of_ne hij]
    exact h.mark j hj
  count := h.count
  cursor := h.cursor
  place := h.place

/-- **every step**: the others change an input that is not drained, a claim is called, or it moves -/
inductive StepCases (n : ℕ) (kind : Kind) (s : St T) : Act T → St T → Prop where
  | others (a : Act T) (i : ℕ) (c : Chan T) (sent : List T) (popped : List (Bool × T)) (hi : i < n)
      (hsent : sent = popped.map Prod.snd ++ c.queue) (hown : own popped = own (s.popped i)) (hlive : ¬ (s.chan i).drained) :
      StepCases n kind s a { s with
        chan := Function.update s.chan i c
        sent := Function.update s.sent i sent
        popped := Function.update s.popped i popped }
  | call (budget : ℕ) : StepCases n kind s (.call budget)
      { s.move (s.worker.goto (.round 0)) with spins := kind.spins budget, polled := 0 }
  | claim (m : ℕ) (s' : St T) (hm : Moves n (Act.blind kind (.poll m : Act T)) s s') : StepCases n kind s (.poll m) s'

theorem step_cases (h : Inv n s) {a : Act T} (hs : step n kind s a = some s') : StepCases n kind s a s' := by
  cases a with
  | send i x =>
    simp only [step] at hs
    split_ifs at hs with hi
    cases hs
    have hstep := @StepCases.others T n kind s (.send i x) i ((s.chan i).push x) (s.sent i ++ [x]) (s.popped i) hi.1
      (by rw [h.conserve i, Chan.push_queue, List.append_assoc]) rfl fun hd => absurd hd.1 (Nat.ne_of_gt hi.2.1)
    simpa only [Function.update_eq_self] using hstep
  | close i =>
    simp only [step] at hs
    split_ifs at hs with hi
    cases hs
    have hstep := @StepCases.others T n kind s (.close i) i (s.chan i).dropSender (s.sent i) (s.popped i) hi.1 (h.conserve i) rfl
      fun hd => absurd hd.1 (Nat.ne_of_gt hi.2)
    simpa only [Function.update_eq_self] using hstep
  | steal i =>
    rcases hq : (s.chan i).queue with _ | ⟨x, rest⟩
    · simp [step, hq] at hs
    simp only [step, hq] at hs
    split_ifs at hs with hi
    cases hs
    have hstep := @StepCases.others T n kind s (.steal i) i ((s.chan i).take 1) (s.sent i) (s.popped i ++ [(false, x)])
      (Nat.lt_of_not_le hi) (by simp [h.conserve i, hq]) (by simp [own]) fun hd => absurd hd.2 (by simp [hq])
    simpa only [Function.update_eq_self] using hstep
  | call budget =>
    simp only [step] at hs
    split_ifs at hs
    cases hs
    exact .call budget
  | poll m => exact .claim m s' (poll_moves h.rxs h.place hs)

theorem step_inv (h : Inv n s) {a : Act T} (hs : step n kind s a = some s') : Inv n s' := by
  cases step_cases h hs with
  | others _ i c sent popped hi hsent hown hlive => exact h.others i c sent popped hsent hown hlive
  | call budget => exact h.goto (.round 0) trivial _ _ _
  | claim m _ hm => exact moves_inv h hm

theorem run_inv {acts : List (Act T)} (h : Inv n s) (hrun : run n kind s acts = some s') : Inv n s' :=
  Machine.run_keeps (fun _ h hs => step_inv h hs) h hrun

/-- what the last successful claim left in the client's hands is what was logged for it -/
def LastOk (s : St T) : Prop :=
  ∀ xs out, s.worker.pc = .work xs out → s.claims = [] ∧ xs = [] ∨ ∃ i, s.claims.getLast? = some (i, xs)

theorem moves_last (hm : Moves n blind s s') : LastOk s' := by
  intro xs out hw
  cases hm with
  | take k m hpc hk hc hm hq =>
    cases hw
    exact Or.inr ⟨_, List.getLast?_concat⟩
  | look k pc hpc hpc' hk hc => rcases hpc' with rfl | rfl <;> cases hw
  | park k pc hpc hk hopen hpc' => rcases hpc' with rfl | ⟨rfl, -⟩ <;> cases hw
  | pending hpc hlt hc | wake hpc hlt hopen =>
    rw [hpc] at hw
    cases hw
  | _ => cases hw

theorem step_last (hi : Inv n s) (h : LastOk s) {a : Act T} (hs : step n kind s a = some s') : LastOk s' := by
  cases step_cases hi hs with
  | others _ i c sent popped hi hsent hown hlive => exact h
  | call budget =>
    intro xs out hw
    cases hw
  | claim m _ hm => exact moves_last hm

theorem run_last {acts : List (Act T)} (hi : Inv n s) (h : LastOk s) (hrun : run n kind s acts = some s') : LastOk s' := by
  refine (Machine.run_keeps (P := fun s => Inv n s ∧ LastOk s) (fun _ h hs => ?_) ⟨hi, h⟩ hrun).2
  exact ⟨step_inv h.1 hs, step_last h.1 h.2 hs⟩

end Invariant

/-! ## Closed inputs are not polled -/

/-- the same state with another input `i` -/
def St.withChan (s : St T) (i : ℕ) (c : Chan T) : St T := { s with chan := Function.update s.chan i c }

@[simp] theorem withChan_worker (s : St T) (i : ℕ) (c : Chan T) : (s.withChan i c).worker = s.worker := rfl

@[simp] theorem withChan_spins (s : St T) (i : ℕ) (c : Chan T) : (s.withChan i c).spins = s.spins := rfl

@[simp] theorem withChan_polled (s : St T) (i : ℕ) (c : Chan T) : (s.withChan i c).polled = s.polled := rfl

section Blind

variable {n : ℕ} {kind : Kind} {blind : Bool} {s : St T} {m i : ℕ}

theorem view_of_ne {j : ℕ} (hij : j ≠ i) (c : Chan T) :
    (s.withChan i c).view.queue j = s.view.queue j ∧ (s.withChan i c).view.sender j = s.view.sender j := by
  simp [St.view, St.withChan, Function.update_of_ne hij]

theorem firstReady_blind (hne : ∀ {k}, s.worker.fanin.closed (s.worker.fanin.place k) = false → s.worker.fanin.place k ≠ i)
    (c : Chan T) : (firstReady n (s.withChan i c) m).map St.worker = (firstReady n s m).map St.worker := by
  by_cases hz : s.worker.fanin.openCount = 0
  · simp only [firstReady, withChan_worker, hz, if_true]
    rfl
  by_cases hp : n ≤ s.polled
  · simp only [firstReady, withChan_worker, withChan_polled, hz, hp, if_false, if_true]
    rfl
  by_cases hc : s.worker.fanin.closed (s.worker.fanin.place s.polled) = true
  · simp only [firstReady, withChan_worker, withChan_polled, hz, hp, hc, if_false, if_true]
    rfl
  have hchan : (s.withChan i c).chan (s.worker.fanin.place s.polled) = s.chan (s.worker.fanin.place s.polled) := by
    simp only [St.withChan]
    exact Function.update_of_ne (hne (Bool.eq_false_iff.2 hc)) c s.chan
  rcases hq : (s.chan (s.worker.fanin.place s.polled)).queue with _ | ⟨x, rest⟩
  · simp only [firstReady, withChan_worker, withChan_polled, hz, hp, hc, if_false, hchan, hq, apply_ite (Option.map St.worker)]
    rfl
  · simp only [firstReady, withChan_worker, withChan_polled, hz, hp, hc, if_false, hchan, hq, apply_ite (Option.map St.worker)]
    rfl

/-- **An input seen closed is never polled again**: what the claim does next does not depend on it -/
theorem poll_blind (h : Inv n s) (hi : s.worker.fanin.closed i = true) (c : Chan T) :
    (poll n kind (s.withChan i c) m).map St.worker = (poll n kind s m).map St.worker := by
  have hp := h.place
  have hne : ∀ {k}, s.worker.fanin.closed (s.worker.fanin.place k) = false → s.worker.fanin.place k ≠ i := by
    rintro k hk rfl
    rw [hi] at hk
    cases hk
  cases hpc : s.worker.pc with
  | round k =>
    have hround : s.worker.roundStep (St.spawn n kind) (s.withChan i c).view m k =
        s.worker.roundStep (St.spawn n kind) s.view m k := by
      simp only [Worker.roundStep, h.rxs, List.length_range]
      by_cases hk : n ≤ k
      · simp only [hk, if_true]
      by_cases hc : s.worker.fanin.closed (s.worker.fanin.place k) = true
      · simp only [hc, if_true]
      · rw [← h.rxs, ring_at h.rxs (Nat.lt_of_not_le hk)]
        simp only [(view_of_ne (hne (Bool.eq_false_iff.2 hc)) c).1]
    simp only [poll, withChan_worker, withChan_spins, hpc, hround]
    by_cases hspin : n ≤ k ∧ 0 < s.spins ∧ m ≠ 0
    · rw [if_pos hspin, if_pos hspin]
      rfl
    · rw [if_neg hspin, if_neg hspin]
      simp [Function.comp_def]
  | probe k =>
    simp only [PlaceOk, hpc] at hp
    have hprobe : s.worker.probeStep (s.withChan i c).view k = s.worker.probeStep s.view k := by
      simp only [Worker.probeStep, ring_at h.rxs hp.1, (view_of_ne (hne hp.2) c).2]
    simp only [poll, withChan_worker, hpc, hprobe]
    simp [Function.comp_def]
  | tryItem k =>
    simp only [PlaceOk, hpc] at hp
    have htry : s.worker.tryItemStep (s.withChan i c).view m k = s.worker.tryItemStep s.view m k := by
      simp only [Worker.tryItemStep, ring_at h.rxs hp.1, (view_of_ne (hne hp.2) c).1, (view_of_ne (hne hp.2) c).2]
    simp only [poll, withChan_worker, hpc, htry]
    simp [Function.comp_def]
  | anchor =>
    cases kind with
    | sync cap =>
      have hanchor : s.worker.anchorStep (s.withChan i c).view m = s.worker.anchorStep s.view m := by
        simp only [Worker.anchorStep, h.rxs, List.length_range]
        by_cases hm : n ≤ m ∨ s.worker.fanin.closed (s.worker.fanin.place m) = true
        · simp only [hm, if_true]
        · rw [← h.rxs, ring_at h.rxs (Nat.lt_of_not_le (not_or.1 hm).1)]
          simp only [(view_of_ne (hne (Bool.eq_false_iff.2 (not_or.1 hm).2)) c).1,
            (view_of_ne (hne (Bool.eq_false_iff.2 (not_or.1 hm).2)) c).2]
      simp only [poll, withChan_worker, hpc, hanchor]
      simp [Function.comp_def]
    | async =>
      simp only [poll, withChan_worker, hpc]
      exact firstReady_blind hne c
  | single k =>
    have hsingle : s.worker.singleStep (s.withChan i c).view k = s.worker.singleStep s.view k := by
      simp only [Worker.singleStep, h.rxs, List.length_range]
      by_cases hk : n ≤ k
      · simp only [hk, if_true]
      by_cases hc : s.worker.fanin.closed (s.worker.fanin.place k) = true
      · simp only [hc, if_true]
      · rw [← h.rxs, ring_at h.rxs (Nat.lt_of_not_le hk)]
        simp only [(view_of_ne (hne (Bool.eq_false_iff.2 hc)) c).1, (view_of_ne (hne (Bool.eq_false_iff.2 hc)) c).2]
    simp only [poll, withChan_worker, hpc, hsingle]
    simp [Function.comp_def]
  | _ => simp [poll, hpc]

/-- nor does the claim touch it -/
theorem moves_closed {s' : St T} (hi : s.worker.fanin.closed i = true) (hm : Moves n blind s s') :
    s'.chan i = s.chan i ∧ s'.worker.fanin.closed i = true := by
  have hmark : ∀ (j : ℕ) (pc : Pc T), (s.worker.markInput j pc).fanin.closed i = true := by
    intro j pc
    simp only [Worker.markInput, FanIn.mark]
    by_cases hij : i = j
    · rw [hij, Function.update_self]
    · rw [Function.update_of_ne hij, hi]
  cases hm with
  | empty k hpc hs => exact ⟨rfl, hi⟩
  | closed k hpc hd => exact ⟨rfl, hmark _ _⟩
  | take k m hpc hk hc hm hq =>
    refine ⟨?_, hi⟩
    have hne : i ≠ s.worker.fanin.place k := by
      rintro rfl
      rw [hi] at hc
      cases hc
    simp only [St.take, Function.update_of_ne hne]
  | drop k polled hpc hk hc hd => exact ⟨rfl, hmark _ _⟩
  | lost k hpc hk hc hd => exact ⟨rfl, hmark _ _⟩
  | _ => exact ⟨rfl, hi⟩

end Blind

end YouPipe.FairClaim
