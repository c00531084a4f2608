/-
What one worker keeps: a live worker holds all its handles, an input it marked is drained, its open count is right, and it
returns only when every input is drained. That a send never reports closed is assumed here and proved of runs.

Results: `next_sound` (every step of a worker) and `blocked_cases` (a worker without a step waits for input on all its open
inputs, or for room on an edge, or has dropped its handles).
-/
import Mathlib.Tactic
import YouPipe.Core.RoundRobin
import YouPipe.Graph.Worker

namespace YouPipe.Graph

open YouPipe.RoundRobin

variable {R T : Type} {sp : Spawn R T} {v : View R T} {w w' : Worker R T} {eff : Effect R T}

/-! ## The invariant -/

/-- what a body can have in hand between two steps -/
def WorkOk : Body T → List T → List T → Prop
  | .source _, scratch, out => scratch = [] ∧ out = []
  | .expand _ _ _, _, _ => True
  | _, _, out => out = []

def PlaceOk (sp : Spawn R T) (w : Worker R T) : Prop :=
  match w.pc with
  | .probe k => k < sp.inputs.length ∧ w.fanin.closed (w.fanin.place k) = false
  | .tryItem k => k < sp.inputs.length ∧ w.fanin.closed (w.fanin.place k) = false
  | .single k => w.fanin.openCount ≤ 1 ∧ ∀ j < k, w.fanin.closed (w.fanin.place j) = true
  | .work scratch out => WorkOk sp.body scratch out
  | .pull batch => ∃ cap, sp.body = .source cap ∧ (cap = 0 → batch = [])
  | .trySend d scratch out => d.edge < sp.outputs.length ∧ WorkOk sp.body scratch out
  | .send d scratch out => d.edge < sp.outputs.length ∧ WorkOk sp.body scratch out
  | _ => True

/-- a worker that has not returned -/
structure Live (sp : Spawn R T) (v : View R T) (w : Worker R T) : Prop where
  rxs : w.fanin.rxs = sp.inputs
  txs : w.txs = sp.outputs
  mark : ∀ i r, w.fanin.closed i = true → sp.inputs[i]? = some r → v.drained r
  count : w.fanin.openCount = (unmarked sp.inputs.length w.fanin.closed).card
  cursor : sp.inputs ≠ [] → w.fanin.cursor < sp.inputs.length
  place : PlaceOk sp w

structure Holds (sp : Spawn R T) (v : View R T) (w : Worker R T) : Prop where
  rxs_sub : w.fanin.rxs ⊆ sp.inputs
  txs_sub : w.txs ⊆ sp.outputs
  live : w.pc ≠ .done → Live sp v w
  eof : w.pc = .done → ∀ r ∈ sp.inputs, v.drained r

theorem Fits.not_source (hf : Fits sp) {k : ℕ} (hk : k < sp.inputs.length) : sp.body.isSource = false := by
  by_contra hs
  simp [hf.source (by simpa using hs)] at hk

theorem Fits.outputs_ne_nil (hf : Fits sp) (hs : sp.body.isSink = false) : sp.outputs ≠ [] := by
  intro hnil
  simp [hf.sink.2 hnil] at hs

/-- drained rings stay drained: what else changes does not matter to a worker -/
theorem Holds.mono {v' : View R T} (h : Holds sp v w) (hd : ∀ r, v.drained r → v'.drained r) : Holds sp v' w where
  rxs_sub := h.rxs_sub
  txs_sub := h.txs_sub
  live hpc :=
    have hl := h.live hpc
    { rxs := hl.rxs, txs := hl.txs, mark := fun i r hi hr => hd r (hl.mark i r hi hr), count := hl.count,
      cursor := hl.cursor, place := hl.place }
  eof hpc r hr := hd r (h.eof hpc r hr)

theorem fresh_holds (sp : Spawn R T) (v : View R T) (hf : Fits sp) :
    Holds sp v (Worker.fresh sp) where
  rxs_sub := List.Subset.refl _
  txs_sub := List.Subset.refl _
  live _ :=
    { rxs := rfl, txs := rfl, mark := by simp [Worker.fresh, FanIn.new]
      count := by simp [Worker.fresh, FanIn.new, unmarked]
      cursor := List.length_pos_of_ne_nil
      place := by
        cases hb : sp.body with
        | source cap => simp [PlaceOk, Worker.fresh, Worker.head, hb]
        | bridge => simpa [PlaceOk, Worker.fresh, Worker.head, hb, FanIn.new] using hf.bridge hb
        | _ => simp [PlaceOk, Worker.fresh, Worker.head, hb] }
  eof hpc := by cases hb : sp.body <;> simp [Worker.fresh, Worker.head, hb] at hpc

/-- an effect that suits the worker: it pushes where it holds a sender and takes from its inputs, and only sources pull an
iterator -/
def Suits (sp : Spawn R T) (w : Worker R T) : Effect R T → Prop
  | .silent => True
  | .take r _ => r ∈ sp.inputs
  | .push r _ => r ∈ w.txs
  | .yield _ => sp.body.isSource = true
  | .consume _ => sp.body.isSink = true

/-- what a step gives: the invariant, fewer senders at most, and an effect that suits the worker -/
structure Sound (sp : Spawn R T) (v : View R T) (w w' : Worker R T) (eff : Effect R T) : Prop where
  holds : Holds sp v w'
  txs : w'.txs ⊆ w.txs
  suits : Suits sp w eff

namespace Live

theorem length (h : Live sp v w) : w.fanin.rxs.length = sp.inputs.length := by rw [h.rxs]

theorem place_lt (h : Live sp v w) {k : ℕ} (hk : k < sp.inputs.length) : w.fanin.place k < sp.inputs.length := by
  rw [FanIn.place, h.length]
  exact Nat.mod_lt _ (Nat.zero_lt_of_lt hk)

theorem openCount_eq_zero (h : Live sp v w) : w.fanin.openCount = 0 ↔ ∀ i < sp.inputs.length, w.fanin.closed i = true := by
  rw [h.count, card_unmarked_eq_zero]

theorem drained_of_closed (h : Live sp v w) (hall : ∀ i < sp.inputs.length, w.fanin.closed i = true) :
    ∀ r ∈ sp.inputs, v.drained r := by
  intro r hr
  obtain ⟨i, hi, rfl⟩ := List.getElem_of_mem hr
  exact h.mark i _ (hall i hi) (List.getElem?_eq_getElem hi)

theorem goto (h : Live sp v w) {pc : Pc T} (hne : pc ≠ .done) (hp : PlaceOk sp (w.goto pc)) : Holds sp v (w.goto pc) where
  rxs_sub := h.rxs ▸ List.Subset.refl _
  txs_sub := h.txs ▸ List.Subset.refl _
  live _ := { h with place := hp }
  eof hpc := absurd hpc hne

/-- end of stream -/
theorem done (h : Live sp v w) (hall : ∀ r ∈ sp.inputs, v.drained r) : Holds sp v (w.goto .done) where
  rxs_sub := h.rxs ▸ List.Subset.refl _
  txs_sub := h.txs ▸ List.Subset.refl _
  live hne := absurd rfl hne
  eof _ := hall

theorem claimed (h : Live sp v w) (hsrc : sp.body.isSource = false) {i : ℕ} (hi : i < sp.inputs.length) (xs : List T) :
    Holds sp v (w.claimed i xs) where
  rxs_sub := h.rxs ▸ List.Subset.refl _
  txs_sub := h.txs ▸ List.Subset.refl _
  live _ :=
    { h with
      cursor := fun _ => by
        simp only [Worker.claimed, FanIn.rotate, h.length]
        exact Nat.mod_lt _ (Nat.zero_lt_of_lt hi)
      place := by cases hb : sp.body <;> simp_all [PlaceOk, Worker.claimed, WorkOk, Body.isSource] }
  eof hpc := by cases hpc

/-- marking an input that reported closed -/
theorem markInput (h : Live sp v w) {i : ℕ} {r : R} {pc : Pc T} (hr : sp.inputs[i]? = some r)
    (hc : w.fanin.closed i = false) (hd : v.drained r) (hne : pc ≠ .done) (hp : PlaceOk sp (w.markInput i pc)) :
    Holds sp v (w.markInput i pc) where
  rxs_sub := h.rxs ▸ List.Subset.refl _
  txs_sub := h.txs ▸ List.Subset.refl _
  live _ :=
    { h with
      mark := by
        intro j r' hj hr'
        by_cases hij : j = i
        · subst hij
          rw [hr] at hr'
          cases hr'
          exact hd
        · simp only [Worker.markInput, FanIn.mark, Function.update_of_ne hij] at hj
          exact h.mark j r' hj hr'
      count := by
        have hi : i < sp.inputs.length := (List.getElem?_eq_some_iff.1 hr).1
        simp only [Worker.markInput, FanIn.mark]
        rw [card_unmarked_mark hi hc, h.count]
      place := hp }
  eof hpc := absurd hpc hne

theorem atEdge (h : Live sp v w) (hout : sp.outputs ≠ []) {batched : Bool} {batch scratch out : List T}
    (hw : WorkOk sp.body scratch out) (i : ℕ) : Holds sp v (w.atEdge batched batch scratch out i) := by
  simp only [Worker.atEdge, h.txs, hout, if_false]
  split_ifs with hi hb
  · exact h.goto (by simp) ⟨hi, hw⟩
  · exact h.goto (by simp) ⟨hi, hw⟩
  · exact h.goto (by simp) hw

/-- back to the head of the loop -/
theorem head (h : Live sp v w) (hf : Fits sp) : Holds sp v (w.goto (Worker.head sp.body)) := by
  cases hb : sp.body with
  | source cap => exact h.goto (by simp [Worker.head]) ⟨cap, hb, fun _ => rfl⟩
  | bridge =>
    apply h.goto (by simp [Worker.head])
    refine ⟨?_, fun j hj => absurd hj (Nat.not_lt_zero j)⟩
    have hcard := Finset.card_filter_le (Finset.range sp.inputs.length) fun i => w.fanin.closed i = false
    rw [Finset.card_range] at hcard
    exact (h.count.trans_le hcard).trans (hf.bridge hb)
  | _ => exact h.goto (by simp [Worker.head]) (by simp [PlaceOk, Worker.goto, Worker.head])

end Live

theorem atEdge_txs (batched : Bool) (batch scratch out : List T) (i : ℕ) :
    (w.atEdge batched batch scratch out i).txs = w.txs := by
  simp only [Worker.atEdge]
  split_ifs <;> rfl

/-! ## Steps -/

theorem Sound.of_txs (h : Holds sp v w') (htxs : w'.txs = w.txs) (hs : Suits sp w eff) : Sound sp v w w' eff where
  holds := h
  txs := htxs ▸ List.Subset.refl _
  suits := hs

theorem Sound.silent (h : Holds sp v w') (htxs : w'.txs = w.txs) : Sound sp v w w' .silent := .of_txs h htxs trivial

/-- the outputs a worker has in hand: those it computed and those of its claimed items -/
def hand (b : Body T) (scratch out : List T) : List T := out ++ scratch.flatMap b.outputs

/-- **the loop body**: back to the head with empty hands, a delivery of the first outputs in hand, an expansion, or a sink's
item consumed -/
inductive WorkCases (sp : Spawn R T) (w : Worker R T) (scratch out : List T) : Worker R T → Effect R T → Prop where
  | head (hs : scratch = []) (ho : out = []) : WorkCases sp w scratch out (w.goto (Worker.head sp.body)) .silent
  | deliver (b : Bool) (batch scratch' out' : List T) (hsink : sp.body.isSink = false) (hw : WorkOk sp.body scratch' out')
      (hh : batch ++ hand sp.body scratch' out' = hand sp.body scratch out) :
      WorkCases sp w scratch out (w.deliver b batch scratch' out') .silent
  | load (scratch' out' : List T) (hw : WorkOk sp.body scratch' out')
      (hh : hand sp.body scratch' out' = hand sp.body scratch out) :
      WorkCases sp w scratch out (w.goto (.work scratch' out')) .silent
  | consume (x : T) (rest : List T) (hsink : sp.body.isSink = true) (hs : scratch = x :: rest) (ho : out = []) :
      WorkCases sp w scratch out (w.goto (.work rest [])) (.consume x)

theorem workStep_cases {scratch out : List T} (hw : WorkOk sp.body scratch out)
    (hs : w.workStep sp scratch out = some (w', eff)) : WorkCases sp w scratch out w' eff := by
  simp only [Worker.workStep] at hs
  split at hs
  · next hb =>
    cases hs
    rw [hb] at hw
    exact .head hw.1 hw.2
  · next f x rest hb =>
    cases hs
    simp only [hb, WorkOk] at hw
    subst hw
    refine .deliver _ _ _ _ (by simp [hb, Body.isSink]) (by simp [hb, WorkOk]) ?_
    simp only [hand, hb, List.flatMap_nil, List.append_nil, List.nil_append]
    exact List.map_eq_flatMap
  · next f x rest hb =>
    cases hs
    simp only [hb, WorkOk] at hw
    subst hw
    refine .deliver _ _ _ _ (by simp [hb, Body.isSink]) (by simp [hb, WorkOk]) ?_
    simp [hand, hb, Body.outputs]
  · next hb =>
    cases hs
    rw [hb] at hw
    exact .head rfl hw
  · next hb =>
    split_ifs at hs
    · cases hs
      refine .deliver _ _ _ _ (by simp [hb, Body.isSink]) (by simp [hb, WorkOk]) ?_
      simp [hand, hb, Body.outputs]
    · cases hs
      refine .load _ _ (by simp [hb, WorkOk]) ?_
      simp [hand, hb, Body.outputs]
  · next hb =>
    cases hs
    refine .deliver _ _ _ _ (by simp [hb, Body.isSink]) (by simp [hb, WorkOk]) ?_
    simp [hand]
  · next hb =>
    cases hs
    refine .deliver _ _ _ _ (by simp [hb, Body.isSink]) (by simp [hb, WorkOk]) ?_
    simp [hand]
  · next hb =>
    cases hs
    refine .load _ _ (by simp [hb, WorkOk]) ?_
    simp [hand, hb, Body.outputs]
  · cases hs
    exact .head rfl rfl
  · next hb =>
    cases hs
    rw [hb] at hw
    exact .consume _ _ (by simp [hb, Body.isSink]) rfl hw
  · next hb =>
    cases hs
    rw [hb] at hw
    exact .head rfl hw
  · next x rest hb =>
    cases hs
    simp only [hb, WorkOk] at hw
    subst hw
    refine .deliver _ _ _ _ (by simp [hb, Body.isSink]) (by simp [hb, WorkOk]) ?_
    simp [hand, hb, Body.outputs]
  · next hb =>
    cases hs
    rw [hb] at hw
    exact .head rfl hw

/-- one call of the iterator: the end with nothing pulled, or with a last partial batch; an item that completes a batch, or
one of an open batch -/
inductive PullCases (sp : Spawn R T) (w : Worker R T) (batch : List T) : Option T → Worker R T → Effect R T → Prop where
  | done (hb : batch = []) : PullCases sp w batch none (w.goto .done) .silent
  | flush : PullCases sp w batch none (w.deliver true batch [] []) .silent
  | send (b : Bool) (x : T) : PullCases sp w batch (some x) (w.deliver b (batch ++ [x]) [] []) (.yield x)
  | more (x : T) (cap : ℕ) (hb : sp.body = .source cap) (hcap : cap ≠ 0) :
      PullCases sp w batch (some x) (w.goto (.pull (batch ++ [x]))) (.yield x)

theorem pullStep_cases {y : Option T} {batch : List T} (hp : ∃ cap, sp.body = .source cap ∧ (cap = 0 → batch = []))
    (hs : w.pullStep sp y batch = some (w', eff)) : PullCases sp w batch y w' eff := by
  obtain ⟨cap, hb, hcap⟩ := hp
  simp only [Worker.pullStep, hb] at hs
  split at hs
  · next x heq =>
    cases hs
    cases heq
    rw [hcap rfl]
    exact .send false x
  · next cap' x hne heq =>
    cases heq
    split_ifs at hs
    · cases hs
      exact .send true x
    · cases hs
      exact .more x cap hb fun hz => hne hz
  · split_ifs at hs with hnil
    · cases hs
      exact .done hnil
    · cases hs
      exact .flush
  · cases hs

section Steps

variable (hf : Fits sp) (h : Live sp v w)
include h

theorem probeStep_sound {k : ℕ} (hpc : w.pc = .probe k) (hs : w.probeStep v k = some (w', eff)) : Sound sp v w w' eff := by
  have hp : k < sp.inputs.length ∧ w.fanin.closed (w.fanin.place k) = false := by
    simpa only [PlaceOk, hpc] using h.place
  simp only [Worker.probeStep] at hs
  split at hs
  · cases hs
  · split_ifs at hs
    · cases hs
      exact .silent (h.goto (by simp) trivial) rfl
    · cases hs
      exact .silent (h.goto (by simp) hp) rfl

theorem trySendStep_sound {m : ℕ} {d : Delivery T} {scratch out : List T} (hpc : w.pc = .trySend d scratch out)
    (hs : w.trySendStep v m d scratch out = some (w', eff)) : Sound sp v w w' eff := by
  have hp : d.edge < sp.outputs.length ∧ WorkOk sp.body scratch out := by simpa only [PlaceOk, hpc] using h.place
  simp only [Worker.trySendStep] at hs
  split at hs
  · cases hs
  · next r hr =>
    cases hs
    exact .of_txs (h.goto (by simp) hp) rfl (List.mem_of_getElem? hr)

theorem sendStep_sound {d : Delivery T} {scratch out : List T} (hpc : w.pc = .send d scratch out)
    (hrecv : ∀ r ∈ sp.outputs, v.receiver r = true) (hs : w.sendStep sp v d scratch out = some (w', eff)) :
    Sound sp v w w' eff := by
  have hp : d.edge < sp.outputs.length ∧ WorkOk sp.body scratch out := by simpa only [PlaceOk, hpc] using h.place
  simp only [Worker.sendStep] at hs
  split at hs
  · cases hs
  · next r hr =>
    have hmem : r ∈ w.txs := List.mem_of_getElem? hr
    split at hs
    · cases hs
      have hout : sp.outputs ≠ [] := List.ne_nil_of_length_pos (Nat.zero_lt_of_lt hp.1)
      exact .silent (h.atEdge hout hp.2 _) (atEdge_txs _ _ _ _ _)
    · split_ifs at hs with hclosed
      · simp [hrecv r (h.txs ▸ hmem)] at hclosed
      · cases hs
        exact .of_txs (h.goto (by simp) hp) rfl hmem

include hf

theorem roundStep_sound {m k : ℕ} (hs : w.roundStep sp v m k = some (w', eff)) : Sound sp v w w' eff := by
  simp only [Worker.roundStep, h.length] at hs
  split_ifs at hs with hk _ hz hone hc hcap
  · cases hs
    exact .silent (h.goto (by simp) trivial) rfl
  · cases hs
    exact .silent (h.done (h.drained_of_closed (h.openCount_eq_zero.1 hz))) rfl
  · cases hs
    exact .silent (h.goto (by simp) ⟨hone.le, by simp⟩) rfl
  · cases hs
    exact .silent (h.goto (by simp) trivial) rfl
  · cases hs
    exact .silent (h.goto (by simp) trivial) rfl
  · cases hs
    exact .silent (h.goto (by simp) ⟨Nat.lt_of_not_le hk, Bool.eq_false_iff.2 hc⟩) rfl
  · have hlt := Nat.lt_of_not_le hk
    split at hs
    · cases hs
    · next r hr =>
      split_ifs at hs
      · cases hs
        exact .of_txs (h.claimed (hf.not_source hlt) (h.place_lt hlt) _) rfl (List.mem_of_getElem? (h.rxs ▸ hr))
      · cases hs
        exact .silent (h.goto (by simp) ⟨hlt, Bool.eq_false_iff.2 hc⟩) rfl

theorem tryItemStep_sound {m k : ℕ} (hpc : w.pc = .tryItem k) (hs : w.tryItemStep v m k = some (w', eff)) :
    Sound sp v w w' eff := by
  have hp : k < sp.inputs.length ∧ w.fanin.closed (w.fanin.place k) = false := by
    simpa only [PlaceOk, hpc] using h.place
  simp only [Worker.tryItemStep, h.rxs] at hs
  split at hs
  · cases hs
  · next r hr =>
    split at hs
    · next hq =>
      split_ifs at hs with hsend
      · cases hs
        exact .silent (h.goto (by simp) trivial) rfl
      · cases hs
        exact .silent (h.markInput hr hp.2 ⟨hq, Bool.eq_false_iff.2 hsend⟩ (by simp) trivial) rfl
    · split_ifs at hs
      · cases hs
        exact .silent (h.goto (by simp) trivial) rfl
      · cases hs
        exact .of_txs (h.claimed (hf.not_source hp.1) (h.place_lt hp.1) _) rfl (List.mem_of_getElem? hr)

theorem anchorStep_sound {m : ℕ} (hs : w.anchorStep v m = some (w', eff)) : Sound sp v w w' eff := by
  simp only [Worker.anchorStep, h.rxs] at hs
  split_ifs at hs with hz hm
  · cases hs
    exact .silent (h.done (h.drained_of_closed (h.openCount_eq_zero.1 hz))) rfl
  · rw [not_or] at hm
    split at hs
    · cases hs
    · next r hr =>
      split at hs
      · next hq =>
        split_ifs at hs with hsend
        cases hs
        exact .silent (h.markInput hr (Bool.eq_false_iff.2 hm.2) ⟨hq, Bool.eq_false_iff.2 hsend⟩ (by simp) trivial) rfl
      · cases hs
        have hlt := Nat.lt_of_not_le hm.1
        exact .of_txs (h.claimed (hf.not_source hlt) (h.place_lt hlt) _) rfl (List.mem_of_getElem? hr)

theorem singleStep_sound {k : ℕ} (hpc : w.pc = .single k) (hs : w.singleStep v k = some (w', eff)) :
    Sound sp v w w' eff := by
  have hp : w.fanin.openCount ≤ 1 ∧ ∀ j < k, w.fanin.closed (w.fanin.place j) = true := by
    simpa only [PlaceOk, hpc] using h.place
  simp only [Worker.singleStep, h.rxs] at hs
  split_ifs at hs with hk hc
  · cases hs
    -- the walk has passed every place
    refine .silent (h.done (h.drained_of_closed fun i hi => ?_)) rfl
    have hne : sp.inputs ≠ [] := List.ne_nil_of_length_pos (Nat.zero_lt_of_lt hi)
    apply all_closed_of_walk (h.cursor hne) _ i hi
    intro j hj
    have := hp.2 j (hj.trans_le hk)
    rwa [FanIn.place, h.length] at this
  · cases hs
    refine .silent (h.goto (by simp) ⟨hp.1, fun j hj => ?_⟩) rfl
    rcases Nat.lt_succ_iff_lt_or_eq.1 hj with hj | rfl
    · exact hp.2 j hj
    · exact hc
  · split at hs
    · cases hs
    · next r hr =>
      split at hs
      · next hq =>
        split_ifs at hs with hsend
        cases hs
        refine .silent (h.markInput hr (Bool.eq_false_iff.2 hc) ⟨hq, Bool.eq_false_iff.2 hsend⟩ (by simp) ?_) rfl
        refine ⟨(Nat.sub_le _ _).trans hp.1, fun j hj => ?_⟩
        by_cases hjk : w.fanin.place j = w.fanin.place k
        · exact hjk ▸ Function.update_self _ _ _
        · rcases Nat.lt_succ_iff_lt_or_eq.1 hj with hj | rfl
          · exact (Function.update_of_ne hjk _ _).trans (hp.2 j hj)
          · exact absurd rfl hjk
      · cases hs
        have hlt := Nat.lt_of_not_le hk
        exact .of_txs (h.claimed (hf.not_source hlt) (h.place_lt hlt) _) rfl (List.mem_of_getElem? hr)

theorem workStep_sound {scratch out : List T} (hpc : w.pc = .work scratch out)
    (hs : w.workStep sp scratch out = some (w', eff)) : Sound sp v w w' eff := by
  have hp : WorkOk sp.body scratch out := by simpa only [PlaceOk, hpc] using h.place
  cases workStep_cases hp hs with
  | head => exact .silent (h.head hf) rfl
  | deliver b batch scratch' out' hsink hw =>
    exact .silent (h.atEdge (hf.outputs_ne_nil hsink) hw 0) (atEdge_txs _ _ _ _ _)
  | load scratch' out' hw => exact .silent (h.goto (by simp) hw) rfl
  | consume x rest hsink =>
    refine .of_txs (h.goto (by simp) ?_) rfl hsink
    cases hb : sp.body <;> simp_all [PlaceOk, WorkOk, Worker.goto, Body.isSink]

theorem pullStep_sound {y : Option T} {batch : List T} (hpc : w.pc = .pull batch)
    (hs : w.pullStep sp y batch = some (w', eff)) : Sound sp v w w' eff := by
  have hp : ∃ cap, sp.body = .source cap ∧ (cap = 0 → batch = []) := by simpa only [PlaceOk, hpc] using h.place
  have hsrc : sp.body.isSource = true ∧ sp.body.isSink = false ∧ WorkOk sp.body [] [] := by
    obtain ⟨cap, hb, -⟩ := hp
    rw [hb]
    exact ⟨rfl, rfl, rfl, rfl⟩
  have hout := hf.outputs_ne_nil hsrc.2.1
  cases pullStep_cases hp hs with
  | done =>
    refine .silent (h.done fun r hr => ?_) rfl
    simp [hf.source hsrc.1] at hr
  | flush => exact .silent (h.atEdge hout hsrc.2.2 0) (atEdge_txs _ _ _ _ _)
  | send b x => exact .of_txs (h.atEdge hout hsrc.2.2 0) (atEdge_txs _ _ _ _ _) hsrc.1
  | more x cap hb hcap => exact .of_txs (h.goto (by simp) ⟨cap, hb, fun hz => absurd hz hcap⟩) rfl hsrc.1

end Steps

theorem dropStep_sound (h : Holds sp v w) (hpc : w.pc = .done) (hs : w.dropStep = some (w', eff)) : Sound sp v w w' eff := by
  simp only [Worker.dropStep] at hs
  split at hs
  · next r txs htxs =>
    cases hs
    have hsub : txs ⊆ w.txs := fun x hx => htxs ▸ List.mem_cons_of_mem r hx
    exact ⟨⟨h.rxs_sub, List.Subset.trans hsub h.txs_sub, fun hne => absurd hpc hne, fun _ => h.eof hpc⟩, hsub, trivial⟩
  · next r rxs htxs hrxs =>
    cases hs
    have hsub : rxs ⊆ w.fanin.rxs := fun x hx => hrxs ▸ List.mem_cons_of_mem r hx
    exact .silent ⟨List.Subset.trans hsub h.rxs_sub, h.txs_sub, fun hne => absurd hpc hne, fun _ => h.eof hpc⟩ rfl
  · cases hs

/-- **a worker's step** keeps what the worker keeps, as long as its edges have receivers -/
theorem next_sound (hf : Fits sp) (h : Holds sp v w) (hrecv : w.pc ≠ .done → ∀ r ∈ sp.outputs, v.receiver r = true)
    {m : ℕ} {y : Option T} (hs : w.next sp v m y = some (w', eff)) : Sound sp v w w' eff := by
  cases hpc : w.pc with
  | round k => exact roundStep_sound hf (h.live (by simp [hpc])) (by simpa only [Worker.next, hpc] using hs)
  | probe k => exact probeStep_sound (h.live (by simp [hpc])) hpc (by simpa only [Worker.next, hpc] using hs)
  | tryItem k => exact tryItemStep_sound hf (h.live (by simp [hpc])) hpc (by simpa only [Worker.next, hpc] using hs)
  | anchor => exact anchorStep_sound hf (h.live (by simp [hpc])) (by simpa only [Worker.next, hpc] using hs)
  | single k => exact singleStep_sound hf (h.live (by simp [hpc])) hpc (by simpa only [Worker.next, hpc] using hs)
  | work scratch out => exact workStep_sound hf (h.live (by simp [hpc])) hpc (by simpa only [Worker.next, hpc] using hs)
  | pull batch => exact pullStep_sound hf (h.live (by simp [hpc])) hpc (by simpa only [Worker.next, hpc] using hs)
  | trySend d scratch out =>
    exact trySendStep_sound (h.live (by simp [hpc])) hpc (by simpa only [Worker.next, hpc] using hs)
  | send d scratch out =>
    exact sendStep_sound (h.live (by simp [hpc])) hpc (hrecv (by simp [hpc])) (by simpa only [Worker.next, hpc] using hs)
  | done => exact dropStep_sound h hpc (by simpa only [Worker.next, hpc] using hs)

/-! ## Blocked workers -/

/-- the worker waits for input: it has an open input, and every input it has not marked is empty with a sender -/
structure WaitsInput (sp : Spawn R T) (v : View R T) (w : Worker R T) : Prop where
  some_open : ∃ i, i < sp.inputs.length ∧ w.fanin.closed i = false
  empty : ∀ i r, sp.inputs[i]? = some r → w.fanin.closed i = false → v.queue r = [] ∧ v.sender r = true

/-- the worker waits for room on an edge that has receivers -/
def WaitsRoom (v : View R T) (w : Worker R T) : Prop := ∃ r ∈ w.txs, v.cap r ≤ (v.queue r).length ∧ v.receiver r = true

/-- marked inputs are drained, so all inputs are empty -/
theorem WaitsInput.all_empty (hw : WaitsInput sp v w) (h : Live sp v w) : ∀ r ∈ sp.inputs, v.queue r = [] := by
  intro r hr
  obtain ⟨i, hi, rfl⟩ := List.getElem_of_mem hr
  have hget := List.getElem?_eq_getElem hi
  cases hc : w.fanin.closed i with
  | true => exact (h.mark i _ hc hget).1
  | false => exact (hw.empty i _ hget hc).1

/-- places from the cursor reach every input -/
theorem Live.exists_place (h : Live sp v w) {i : ℕ} (hi : i < sp.inputs.length) :
    ∃ m, m < sp.inputs.length ∧ w.fanin.place m = i := by
  have hc := h.cursor (List.ne_nil_of_length_pos (Nat.zero_lt_of_lt hi))
  rcases Nat.lt_or_ge i w.fanin.cursor with hlt | hge
  · refine ⟨i + sp.inputs.length - w.fanin.cursor, by omega, ?_⟩
    rw [FanIn.place, h.length, show w.fanin.cursor + (i + sp.inputs.length - w.fanin.cursor) = i + sp.inputs.length by omega,
      Nat.add_mod_right, Nat.mod_eq_of_lt hi]
  · refine ⟨i - w.fanin.cursor, by omega, ?_⟩
    rw [FanIn.place, h.length, show w.fanin.cursor + (i - w.fanin.cursor) = i by omega, Nat.mod_eq_of_lt hi]

theorem anchor_waits (h : Live sp v w) (hb : ∀ m, w.anchorStep v m = none) : WaitsInput sp v w := by
  have hz : w.fanin.openCount ≠ 0 := by
    intro hz
    have := hb 0
    simp [Worker.anchorStep, hz] at this
  constructor
  · by_contra hall
    push Not at hall
    exact hz (h.openCount_eq_zero.2 fun i hi => by simpa using hall i hi)
  · intro i r hr hc
    obtain ⟨m, hm, rfl⟩ := h.exists_place (List.getElem?_eq_some_iff.1 hr).1
    have hnone := hb m
    simp only [Worker.anchorStep, h.rxs, hz, hr, hc, Nat.not_le.2 hm, if_false, Bool.false_eq_true, or_self] at hnone
    split at hnone
    · next hq =>
      split_ifs at hnone with hsend
      exact ⟨hq, hsend⟩
    · cases hnone

theorem single_waits (h : Live sp v w) {k : ℕ} (hpc : w.pc = .single k) (hb : w.singleStep v k = none) :
    WaitsInput sp v w := by
  have hp : w.fanin.openCount ≤ 1 := by
    have := h.place
    simp only [PlaceOk, hpc] at this
    exact this.1
  simp only [Worker.singleStep, h.rxs] at hb
  split_ifs at hb with hk hc
  have hi := h.place_lt (Nat.lt_of_not_le hk)
  have hc' := Bool.eq_false_iff.2 hc
  rw [List.getElem?_eq_getElem hi] at hb
  simp only at hb
  split at hb
  · next hq =>
    split_ifs at hb with hsend
    refine ⟨⟨_, hi, hc'⟩, fun i r hr hci => ?_⟩
    -- at most one input is open, so this is it
    have hone : i = w.fanin.place k := by
      have hcard := h.count ▸ hp
      exact Finset.card_le_one.1 hcard i (mem_unmarked.2 ⟨(List.getElem?_eq_some_iff.1 hr).1, hci⟩) _
        (mem_unmarked.2 ⟨hi, hc'⟩)
    subst hone
    rw [List.getElem?_eq_getElem hi] at hr
    cases hr
    exact ⟨hq, hsend⟩
  · cases hb

theorem send_waits (h : Live sp v w) {d : Delivery T} {scratch out : List T} (hpc : w.pc = .send d scratch out)
    (hb : w.sendStep sp v d scratch out = none) : WaitsRoom v w := by
  have hp : d.edge < w.txs.length := by
    have := h.place
    simp only [PlaceOk, hpc] at this
    exact h.txs ▸ this.1
  simp only [Worker.sendStep, List.getElem?_eq_getElem hp] at hb
  split at hb
  · cases hb
  · split_ifs at hb with hr hfull
    · split at hb <;> cases hb
    · exact ⟨_, List.getElem_mem hp, hfull, by simpa using hr⟩

theorem roundStep_enabled (h : Live sp v w) (m k : ℕ) : w.roundStep sp v m k ≠ none := by
  simp only [Worker.roundStep, h.rxs]
  split_ifs with hk
  any_goals simp
  rw [List.getElem?_eq_getElem (h.place_lt (Nat.lt_of_not_le hk))]
  simp only
  split_ifs <;> simp

theorem probeStep_enabled (h : Live sp v w) {k : ℕ} (hpc : w.pc = .probe k) : w.probeStep v k ≠ none := by
  have hp : k < sp.inputs.length ∧ w.fanin.closed (w.fanin.place k) = false := by
    simpa only [PlaceOk, hpc] using h.place
  simp only [Worker.probeStep, h.rxs, List.getElem?_eq_getElem (h.place_lt hp.1)]
  split_ifs <;> simp

theorem tryItemStep_enabled (h : Live sp v w) {k : ℕ} (hpc : w.pc = .tryItem k) (m : ℕ) : w.tryItemStep v m k ≠ none := by
  have hp : k < sp.inputs.length ∧ w.fanin.closed (w.fanin.place k) = false := by
    simpa only [PlaceOk, hpc] using h.place
  simp only [Worker.tryItemStep, h.rxs, List.getElem?_eq_getElem (h.place_lt hp.1)]
  split <;> split_ifs <;> simp

theorem workStep_enabled (scratch out : List T) : w.workStep sp scratch out ≠ none := by
  simp only [Worker.workStep]
  split
  any_goals simp
  split_ifs <;> simp

theorem pullStep_enabled (h : Live sp v w) {batch : List T} (hpc : w.pc = .pull batch) : w.pullStep sp none batch ≠ none := by
  have hp : ∃ cap, sp.body = .source cap ∧ (cap = 0 → batch = []) := by simpa only [PlaceOk, hpc] using h.place
  obtain ⟨cap, hb, -⟩ := hp
  simp only [Worker.pullStep, hb]
  split_ifs <;> simp

theorem trySendStep_enabled (h : Live sp v w) {d : Delivery T} {scratch out : List T} (hpc : w.pc = .trySend d scratch out)
    (m : ℕ) : w.trySendStep v m d scratch out ≠ none := by
  have hp : d.edge < w.txs.length := by
    have := h.place
    simp only [PlaceOk, hpc] at this
    exact h.txs ▸ this.1
  simp [Worker.trySendStep, List.getElem?_eq_getElem hp]

theorem exited_of_dropStep (hpc : w.pc = .done) (hb : w.dropStep = none) : w.exited := by
  simp only [Worker.dropStep] at hb
  split at hb
  · cases hb
  · cases hb
  · next htxs hrxs => exact ⟨hpc, htxs, hrxs⟩

/-- **a worker without a step** waits for input, waits for room, or has dropped all its handles -/
theorem blocked_cases (h : Holds sp v w) (hb : ∀ m y, w.next sp v m y = none) :
    (w.pc ≠ .done ∧ WaitsInput sp v w) ∨ (w.pc ≠ .done ∧ WaitsRoom v w) ∨ w.exited := by
  have hb' := hb 0 none
  cases hpc : w.pc with
  | round k =>
    simp only [Worker.next, hpc] at hb'
    exact absurd hb' (roundStep_enabled (h.live (by simp [hpc])) 0 k)
  | probe k =>
    simp only [Worker.next, hpc] at hb'
    exact absurd hb' (probeStep_enabled (h.live (by simp [hpc])) hpc)
  | tryItem k =>
    simp only [Worker.next, hpc] at hb'
    exact absurd hb' (tryItemStep_enabled (h.live (by simp [hpc])) hpc 0)
  | anchor =>
    simp only [Worker.next, hpc] at hb
    exact .inl ⟨by simp, anchor_waits (h.live (by simp [hpc])) fun m => hb m none⟩
  | single k =>
    simp only [Worker.next, hpc] at hb'
    exact .inl ⟨by simp, single_waits (h.live (by simp [hpc])) hpc hb'⟩
  | work scratch out =>
    simp only [Worker.next, hpc] at hb'
    exact absurd hb' (workStep_enabled scratch out)
  | pull batch =>
    simp only [Worker.next, hpc] at hb'
    exact absurd hb' (pullStep_enabled (h.live (by simp [hpc])) hpc)
  | trySend d scratch out =>
    simp only [Worker.next, hpc] at hb'
    exact absurd hb' (trySendStep_enabled (h.live (by simp [hpc])) hpc 0)
  | send d scratch out =>
    simp only [Worker.next, hpc] at hb'
    exact .inr (.inl ⟨by simp, send_waits (h.live (by simp [hpc])) hpc hb'⟩)
  | done =>
    simp only [Worker.next, hpc] at hb'
    exact .inr (.inr (exited_of_dropStep hpc hb'))

end YouPipe.Graph
