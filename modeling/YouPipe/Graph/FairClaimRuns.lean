/-
Claims of a fan-in from the call to the return, and windows of claims.

A claim called after the end of the stream walks over the inputs once (`Ending`, `left`). One that is under way may be anywhere, in
the middle of the async anchor too: `toReturn` bounds its steps as long as it can count on something (`Waits`), namely that all
inputs are drained or that one of them has an item; only a poll that overlooks an item may set it back, by one `budget` at most.

- `call_drained`, `run_serving`: a claim called on drained inputs, and a claim under way.
- `run_serves`: an input with an item at every poll is served within `n` claims.
- `fair_claims`: every reachable state and every window of claims.
-/
import Mathlib.Tactic
import YouPipe.Core.Channel
import YouPipe.Core.Machine
import YouPipe.Core.RoundRobin
import YouPipe.Graph.FairClaim

namespace YouPipe.FairClaim

open YouPipe.Channel YouPipe.RoundRobin YouPipe.Graph

variable {T : Type}

/-! ## The end of the stream -/

/-- a claim on inputs that are all closed and drained: it has closed what it has walked past -/
def Ending (n : ℕ) (s : St T) : Prop :=
  (∀ i < n, (s.chan i).drained) ∧
    match s.worker.pc with
    | .round k => ∀ j < k, s.worker.fanin.closed (s.worker.fanin.place j) = true
    | .probe k => ∀ j < k, s.worker.fanin.closed (s.worker.fanin.place j) = true
    | .tryItem k => ∀ j < k, s.worker.fanin.closed (s.worker.fanin.place j) = true
    | .done => True
    | _ => False

def inRound : Pc T → Bool
  | .round _ => true
  | .probe _ => true
  | .tryItem _ => true
  | _ => false

/-- a bound on the steps that a claim still takes in its rounds -/
def left (n : ℕ) (s : St T) : ℕ :=
  match s.worker.pc with
  | .round k => s.spins * (3 * n + 2) + 3 * (n - k) + 1
  | .probe k => s.spins * (3 * n + 2) + 3 * (n - k)
  | .tryItem k => s.spins * (3 * n + 2) + 3 * (n - k) - 1
  | _ => 0

section Ending

variable {n : ℕ} {kind : Kind} {blind : Bool} {s s' : St T} {m : ℕ}

/-- every step of a round counts, whatever stands in the inputs -/
theorem left_lt (h : Inv n s) (hround : inRound s.worker.pc = true) (hm : Moves n blind s s') : left n s' < left n s := by
  have hp := h.place
  cases hm with
  | restart k hpc hk hspin =>
    obtain ⟨b, hb⟩ := Nat.exists_eq_add_one_of_ne_zero (Nat.pos_iff_ne_zero.1 hspin)
    simp only [left, hpc, St.move, Worker.goto, hb, Nat.add_sub_cancel, Nat.add_mul]
    omega
  | skip k hpc hk hc =>
    simp only [left, hpc, St.move, Worker.goto]
    omega
  | look k pc hpc hpc' hk hc =>
    rcases hpc' with rfl | rfl
    · simp only [left, hpc, St.move, Worker.goto]
      omega
    · simp only [left, hpc, St.move, Worker.goto]
      omega
  | gone k hpc hs =>
    simp only [PlaceOk, hpc] at hp
    simp only [left, hpc, St.move, Worker.goto]
    omega
  | empty k hpc hs =>
    have hleft : ∀ (w : Worker ℕ T) (i : ℕ), left n ((s.move w).note i) = left n (s.move w) := by
      intro w i
      simp only [left, note_worker, note_spins]
    rw [hleft]
    rcases hpc with hpc | hpc
    · simp only [PlaceOk, hpc] at hp
      simp only [left, hpc, St.move, Worker.goto]
      omega
    · simp only [PlaceOk, hpc] at hp
      simp only [left, hpc, St.move, Worker.goto]
      omega
  | closed k hpc hd' =>
    simp only [PlaceOk, hpc] at hp
    simp only [left, hpc]
    change s.spins * (3 * n + 2) + 3 * (n - (k + 1)) + 1 < _
    omega
  | park k pc hpc hk hopen hpc' =>
    rcases hpc' with rfl | ⟨rfl, -⟩
    · simp only [left, hpc, St.move, Worker.goto]
      omega
    · simp only [left, hpc, St.move, Worker.goto]
      omega
  | eof hpc hopen =>
    rcases hpc with ⟨k, hpc, -⟩ | hpc
    · simp only [left, hpc, St.move, Worker.goto]
      omega
    · simp [hpc, inRound] at hround
  | take k m hpc hk hc hm hq =>
    rcases hpc with hpc | hpc | hpc | hpc
    · simp only [left, hpc, St.take, Worker.claimed]
      omega
    · simp only [left, hpc, St.take, Worker.claimed]
      omega
    · simp [hpc, inRound] at hround
    · simp [hpc, inRound] at hround
  | pending hpc hlt hc | wake hpc hlt hopen => simp [hpc, inRound] at hround
  | drop k polled hpc hk hc hd' => simp [hpc, inRound] at hround
  | ended k hpc hk => simp [hpc, inRound] at hround
  | pass k hpc hk hc => simp [hpc, inRound] at hround
  | lost k hpc hk hc hd' => simp [hpc, inRound] at hround

theorem moves_ending (h : Inv n s) (he : Ending n s) (hm : Moves n blind s s') :
    Ending n s' ∧ left n s' < left n s ∧ s'.claims = s.claims := by
  obtain ⟨hd, hw⟩ := he
  have hp := h.place
  have hlive : ∀ {k}, k < n → ¬ 0 < (s.chan (s.worker.fanin.place k)).senders := by
    intro k hk
    rw [(hd _ (place_lt h.rxs hk)).1]
    exact Nat.lt_irrefl 0
  have hlt : inRound s.worker.pc = true → left n s' < left n s := fun hround => left_lt h hround hm
  cases hm with
  | restart k hpc hk hspin => exact ⟨⟨hd, fun j hj => absurd hj (Nat.not_lt_zero j)⟩, hlt (by rw [hpc]; rfl), rfl⟩
  | skip k hpc hk hc =>
    simp only [hpc] at hw
    refine ⟨⟨hd, ?_⟩, hlt (by rw [hpc]; rfl), rfl⟩
    intro j hj
    rcases Nat.lt_succ_iff_lt_or_eq.1 hj with hjk | rfl
    · exact hw j hjk
    · exact hc
  | look k pc hpc hpc' hk hc =>
    simp only [hpc] at hw
    rcases hpc' with rfl | rfl
    · exact ⟨⟨hd, hw⟩, hlt (by rw [hpc]; rfl), rfl⟩
    · exact ⟨⟨hd, hw⟩, hlt (by rw [hpc]; rfl), rfl⟩
  | gone k hpc hs =>
    simp only [hpc] at hw
    exact ⟨⟨hd, hw⟩, hlt (by rw [hpc]; rfl), rfl⟩
  | empty k hpc hs =>
    have hk : k < n := by
      rcases hpc with hpc | hpc
      · simp only [PlaceOk, hpc] at hp
        exact hp.1
      · simp only [PlaceOk, hpc] at hp
        exact hp.1
    exact absurd hs (hlive hk)
  | closed k hpc hd' =>
    simp only [hpc] at hw
    exact ⟨⟨hd, walked_mark hw _⟩, hlt (by rw [hpc]; rfl), rfl⟩
  | park k pc hpc hk hopen hpc' =>
    simp only [hpc] at hw
    exact absurd (walked_all h hk hw) hopen
  | eof hpc hopen =>
    rcases hpc with ⟨k, hpc, -⟩ | hpc
    · exact ⟨⟨hd, trivial⟩, hlt (by rw [hpc]; rfl), rfl⟩
    · simp [hpc] at hw
  | take k m hpc hk hc hm hq =>
    rw [(hd _ (place_lt h.rxs hk)).2] at hq
    exact absurd hq (Nat.not_le_of_lt hm)
  | pending hpc hlt hc | wake hpc hlt hopen => simp [hpc] at hw
  | drop k polled hpc hk hc hd' => simp [hpc] at hw
  | ended k hpc hk => simp [hpc] at hw
  | pass k hpc hk hc => simp [hpc] at hw
  | lost k hpc hk hc hd' => simp [hpc] at hw

/-- nobody else can move: senders are gone and there is nothing to take -/
theorem step_ending (h : Inv n s) (he : Ending n s) {a : Act T} (ha : ∀ b, a ≠ .call b) (hs : step n kind s a = some s') :
    Ending n s' ∧ left n s' < left n s ∧ s'.claims = s.claims := by
  cases step_cases h hs with
  | others _ i c sent popped hi hsent hown hlive => exact absurd (he.1 i hi) hlive
  | call budget => exact absurd rfl (ha budget)
  | claim m _ hm => exact moves_ending h he hm

theorem run_ending {acts : List (Act T)} (h : Inv n s) (he : Ending n s) (ha : ∀ a ∈ acts, ∀ b, a ≠ .call b)
    (hrun : run n kind s acts = some s') : Ending n s' ∧ acts.length + left n s' ≤ left n s ∧ s'.claims = s.claims := by
  obtain ⟨⟨-, he', hclaims⟩, hle⟩ :
      (Inv n s' ∧ Ending n s' ∧ s'.claims = s.claims) ∧ acts.length + left n s' ≤ left n s := by
    refine Machine.run_descends (P := fun t => Inv n t ∧ Ending n t ∧ t.claims = s.claims) (fun hmem h hs => ?_)
      ⟨h, he, rfl⟩ hrun
    obtain ⟨he₁, hlt, hclaims⟩ := step_ending h.1 h.2.1 (ha _ hmem) hs
    exact ⟨⟨step_inv h.1 hs, he₁, hclaims.trans h.2.2⟩, hlt⟩
  exact ⟨he', hle, hclaims⟩

/-- a claim in its round is never stuck -/
theorem poll_inRound (h : Inv n s) (hround : inRound s.worker.pc = true) : (poll n kind s m).isSome = true := by
  have hp := h.place
  cases hpc : s.worker.pc with
  | round k =>
    simp only [poll, hpc]
    split_ifs
    · rfl
    simp only [Worker.roundStep, h.rxs, List.length_range, St.spawn, Bool.false_eq_true, false_and, if_false]
    split_ifs with hk hz hone hc hcap
    · rfl
    · rfl
    · rfl
    · rfl
    · rfl
    · rw [← h.rxs, ring_at h.rxs (Nat.lt_of_not_le hk)]
      by_cases hn : 0 < min m (min kind.claimCap (s.view.queue (s.worker.fanin.place k)).length)
      · simp only [hn, if_true, Option.isSome_map, Option.isSome_some]
      · simp only [hn, if_false, Option.isSome_map, Option.isSome_some]
  | probe k =>
    simp only [PlaceOk, hpc] at hp
    simp only [poll, hpc, Worker.probeStep, ring_at h.rxs hp.1, Option.isSome_map]
    split_ifs
    · rfl
    · rfl
  | tryItem k =>
    simp only [PlaceOk, hpc] at hp
    simp only [poll, hpc, Worker.tryItemStep, ring_at h.rxs hp.1, Option.isSome_map]
    split
    · split_ifs
      · rfl
      · rfl
    · split_ifs
      · rfl
      · rfl
  | _ => simp [hpc, inRound] at hround

/-- nor is one that ends -/
theorem poll_ending (h : Inv n s) (he : Ending n s) (hpc : s.worker.pc ≠ .done) : (poll n kind s m).isSome = true := by
  refine poll_inRound h ?_
  have hw := he.2
  cases hpc' : s.worker.pc with
  | round k | probe k | tryItem k => rfl
  | done => exact absurd hpc' hpc
  | _ => simp [hpc'] at hw

theorem Ending.not_returned (he : Ending n s) (hpc : s.worker.pc ≠ .done) : returned s.worker.pc = false := by
  have hw := he.2
  cases hpc' : s.worker.pc with
  | work scratch out => simp [hpc'] at hw
  | done => exact absurd hpc' hpc
  | _ => rfl

/-- a claim called on inputs that are all closed and drained, over the steps of the run up to the next call -/
theorem call_drained {budget : ℕ} {acts : List (Act T)} (h : Inv n s) (hret : returned s.worker.pc = true)
    (hdrained : ∀ i < n, (s.chan i).drained) (hrun : run n kind s (.call budget :: acts) = some s')
    (ha : ∀ a ∈ acts, ∀ b, a ≠ .call b) :
    s'.claims = s.claims ∧ acts.length ≤ kind.spins budget * (3 * n + 2) + 3 * n + 1 ∧
      (s'.worker.pc = .done ∨ returned s'.worker.pc = false ∧ ∀ m, (poll n kind s' m).isSome = true) := by
  simp only [run, List.foldlM_cons, step, hret, if_true, Option.bind_eq_bind, Option.bind_some] at hrun
  have hstart : Inv n { s.move (s.worker.goto (.round 0)) with spins := kind.spins budget, polled := 0 } :=
    h.goto (.round 0) trivial _ _ _
  obtain ⟨he, hle, hclaims⟩ := run_ending hstart ⟨hdrained, fun j hj => absurd hj (Nat.not_lt_zero j)⟩ ha hrun
  refine ⟨hclaims, (Nat.le_add_right _ _).trans hle, ?_⟩
  by_cases hdone : s'.worker.pc = .done
  · exact Or.inl hdone
  · exact Or.inr ⟨he.not_returned hdone, fun m => poll_ending (run_inv hstart hrun) he hdone⟩

end Ending

/-! ## A claim under way -/

/-- what a claim can count on: every input is closed and drained, or input `i`, which it has not seen closed, has an item -/
def Waits (n : ℕ) (s : St T) : Option ℕ → Prop
  | none => ∀ i < n, (s.chan i).drained
  | some i => i < n ∧ s.worker.fanin.closed i = false ∧ (s.chan i).queue ≠ []

/-- the inputs that are ready for it -/
def awaited : Option ℕ → ℕ → Prop
  | none, _ => True
  | some i, j => j = i

/-- the async anchor has polled past all of them -/
def Past (n : ℕ) (t : Option ℕ) (s : St T) : Prop :=
  ∀ k < n, s.polled ≤ k → awaited t (s.worker.fanin.place k) → s.worker.fanin.closed (s.worker.fanin.place k) = true

/-- a bound on the steps of a claim from here, and of one that is about to park -/
def parked (n : ℕ) (s : St T) : ℕ := s.worker.fanin.openCount * (2 * n + 2) + 2 * n + 2

/-- a bound on the steps of a claim wherever it is -/
def budget (n : ℕ) (s : St T) : ℕ := s.spins * (3 * n + 2) + s.worker.fanin.openCount * (2 * n + 2) + 5 * n + 3

open Classical in
/-- what it costs to start over -/
noncomputable def detour (n : ℕ) (t : Option ℕ) (s : St T) : ℕ := if Past n t s then n + 1 else 0

/-- a bound on the steps that a claim takes until it returns: the async anchor may have to start over once for each close -/
noncomputable def toReturn (n : ℕ) (t : Option ℕ) (s : St T) : ℕ :=
  match s.worker.pc with
  | .round _ => left n s + parked n s
  | .probe _ => left n s + parked n s
  | .tryItem _ => left n s + parked n s
  | .anchor =>
    s.worker.fanin.openCount * (2 * n + 2) + (n - s.polled) + detour n t s + 1
  | .single k => n - k + 1
  | _ => 0

/-- how a claim returns -/
def Ends (s : St T) (base : List (ℕ × List T)) : Option ℕ → Prop
  | none => s.worker.pc = .done ∧ s.claims = base
  | some _ => ∃ c, s.claims = base ++ [c]

/-- the claim is under way and can still count on it, or it has returned -/
def Serving (n : ℕ) (t : Option ℕ) (base : List (ℕ × List T)) (s : St T) : Prop :=
  returned s.worker.pc = false ∧ Waits n s t ∧ s.claims = base ∨ returned s.worker.pc = true ∧ Ends s base t

/-- the client does not call again, and no sibling takes from the input with the item -/
def Act.leaves : Option ℕ → Act T → Prop
  | t, .steal j => t ≠ some j
  | _, .call _ => False
  | _, _ => True

section Serving

variable {n : ℕ} {kind : Kind} {blind : Bool} {s s' : St T} {m : ℕ} {t : Option ℕ} {base : List (ℕ × List T)}

theorem Inv.openCount_pos (h : Inv n s) {i : ℕ} (hi : i < n) (hc : s.worker.fanin.closed i = false) :
    0 < s.worker.fanin.openCount := by
  rw [h.count]
  exact Finset.card_pos.2 ⟨i, mem_unmarked.2 ⟨hi, hc⟩⟩

/-- an awaited input answers -/
theorem Waits.ready (hw : Waits n s t) {j : ℕ} (hj : j < n) (ht : awaited t j) :
    (s.chan j).senders = 0 ∨ (s.chan j).queue ≠ [] := by
  cases t with
  | none => exact Or.inl (hw j hj).1
  | some i =>
    obtain rfl : j = i := ht
    exact Or.inr hw.2.2

/-- as long as an input is open, an awaited one is -/
theorem Waits.some_open (h : Inv n s) (hw : Waits n s t) (hopen : s.worker.fanin.openCount ≠ 0) :
    ∃ j < n, awaited t j ∧ s.worker.fanin.closed j = false := by
  cases t with
  | none =>
    rw [h.count] at hopen
    obtain ⟨j, hj⟩ := Finset.card_pos.1 (Nat.pos_of_ne_zero hopen)
    obtain ⟨hlt, hc⟩ := mem_unmarked.1 hj
    exact ⟨j, hlt, trivial, hc⟩
  | some i => exact ⟨i, hw.1, rfl, hw.2.1⟩

theorem exists_place (h : Inv n s) {j : ℕ} (hj : j < n) : ∃ k < n, s.worker.fanin.place k = j := by
  have hcursor := h.cursor (Nat.zero_lt_of_lt hj)
  exact ⟨ahead n s.worker.fanin.cursor j, ahead_lt hcursor hj, by
    rw [FanIn.place, h.rxs, List.length_range, place_ahead hcursor hj]⟩

theorem detour_le : detour n t s ≤ n + 1 := by
  unfold detour
  split_ifs
  · exact le_rfl
  · exact Nat.zero_le _

theorem left_le : left n s ≤ s.spins * (3 * n + 2) + 3 * n + 1 := by
  unfold left
  split
  · omega
  · omega
  · omega
  · exact Nat.zero_le _

/-- a claim that is not in its round is parked or has returned -/
theorem toReturn_le : toReturn n t s ≤ left n s + parked n s := by
  unfold toReturn
  split
  · exact le_rfl
  · exact le_rfl
  · exact le_rfl
  · have hdetour := detour_le (n := n) (t := t) (s := s)
    simp only [parked]
    omega
  · simp only [parked]
    omega
  · exact Nat.zero_le _

theorem toReturn_le_budget : toReturn n t s ≤ budget n s := by
  have hle := toReturn_le (n := n) (t := t) (s := s)
  have hleft := left_le (n := n) (s := s)
  simp only [parked] at hle
  simp only [budget]
  omega

/-- neither the spins nor the open inputs grow -/
theorem moves_le (hm : Moves n blind s s') :
    s'.spins ≤ s.spins ∧ s'.worker.fanin.openCount ≤ s.worker.fanin.openCount := by
  cases hm with
  | restart k hpc hk hspin => exact ⟨Nat.sub_le _ _, le_rfl⟩
  | empty k hpc hs =>
    rw [note_spins, note_worker]
    exact ⟨le_rfl, le_rfl⟩
  | closed k hpc hd =>
    rw [note_spins, note_worker]
    exact ⟨le_rfl, Nat.sub_le _ _⟩
  | drop k polled hpc hk hc hd => exact ⟨le_rfl, Nat.sub_le _ _⟩
  | lost k hpc hk hc hd => exact ⟨le_rfl, Nat.sub_le _ _⟩
  | _ => exact ⟨le_rfl, le_rfl⟩

theorem moves_budget (hm : Moves n blind s s') : budget n s' ≤ budget n s := by
  obtain ⟨hspins, hopen⟩ := moves_le hm
  have h1 := Nat.mul_le_mul_right (3 * n + 2) hspins
  have h2 := Nat.mul_le_mul_right (2 * n + 2) hopen
  simp only [budget]
  omega

theorem round_toReturn (h : Inv n s) (hround : inRound s.worker.pc = true) (hm : Moves n blind s s') :
    toReturn n t s' < toReturn n t s := by
  have hfrom : toReturn n t s = left n s + parked n s := by
    unfold toReturn
    cases hpc : s.worker.pc with
    | round k | probe k | tryItem k => rfl
    | _ => simp [hpc, inRound] at hround
  have hopen := Nat.mul_le_mul_right (2 * n + 2) (moves_le hm).2
  have hpark : parked n s' ≤ parked n s := by
    simp only [parked]
    omega
  calc toReturn n t s' ≤ left n s' + parked n s' := toReturn_le
    _ < left n s + parked n s := Nat.add_lt_add_of_lt_of_le (left_lt h hround hm) hpark
    _ = toReturn n t s := hfrom.symm

/-- the async anchor comes nearer to an awaited input with every poll that is not blind -/
theorem pending_toReturn (hw : Waits n s t) (hpc : s.worker.pc = .anchor) (hp : s.polled < n)
    (hr : s.worker.fanin.rxs = List.range n)
    (hc : s.worker.fanin.closed (s.worker.fanin.place s.polled) = true ∨
      0 < (s.chan (s.worker.fanin.place s.polled)).senders ∧ (s.chan (s.worker.fanin.place s.polled)).queue = []) :
    toReturn n t { s with polled := s.polled + 1 } < toReturn n t s := by
  have hpast : Past n t { s with polled := s.polled + 1 } → Past n t s := by
    intro h k hk hle ht
    rcases Nat.eq_or_lt_of_le hle with rfl | hlt
    · rcases hc with hc | ⟨hsend, hq⟩
      · exact hc
      · rcases hw.ready (place_lt hr hk) ht with hgone | hitem
        · omega
        · exact absurd hq hitem
    · exact h k hk hlt ht
  have hdetour : detour n t { s with polled := s.polled + 1 } ≤ detour n t s := by
    by_cases h : Past n t { s with polled := s.polled + 1 }
    · rw [detour, detour, if_pos h, if_pos (hpast h)]
    · rw [detour, if_neg h]
      exact Nat.zero_le _
  simp only [toReturn, hpc]
  omega

/-- woken, it starts again before an awaited input -/
theorem wake_toReturn (h : Inv n s) (hw : Waits n s t) (hpc : s.worker.pc = .anchor) (hp : n ≤ s.polled)
    (hopen : s.worker.fanin.openCount ≠ 0) : toReturn n t { s with polled := 0 } < toReturn n t s := by
  have hpast : Past n t s := fun k hk hle => absurd hk (Nat.not_lt_of_le (hp.trans hle))
  have hnot : ¬ Past n t { s with polled := 0 } := by
    intro hall
    obtain ⟨j, hj, ht, hc⟩ := hw.some_open h hopen
    obtain ⟨k, hk, hkj⟩ := exists_place h hj
    have hmarked : s.worker.fanin.closed (s.worker.fanin.place k) = true := hall k hk (Nat.zero_le _) (by
      change awaited t (s.worker.fanin.place k)
      rwa [hkj])
    rw [hkj, hc] at hmarked
    cases hmarked
  have hover : detour n t s = n + 1 := if_pos hpast
  have hagain : detour n t { s with polled := 0 } = 0 := if_neg hnot
  simp only [toReturn, hpc]
  omega

/-- **a step of a claim brings it nearer to its return**, unless it overlooks an item -/
theorem moves_toReturn (h : Inv n s) (hw : Waits n s t) (hm : Moves n blind s s') :
    toReturn n t s' < toReturn n t s ∨ (t.isSome && blind) = true ∧ 0 < toReturn n t s := by
  by_cases hround : inRound s.worker.pc = true
  · exact Or.inl (round_toReturn h hround hm)
  cases hm with
  | restart k hpc | skip k hpc | gone k hpc | closed k hpc | park k pc hpc => simp [hpc, inRound] at hround
  | look k pc hpc => simp [hpc, inRound] at hround
  | empty k hpc => rcases hpc with hpc | hpc <;> simp [hpc, inRound] at hround
  | eof hpc hopen =>
    rcases hpc with ⟨k, hpc, -⟩ | hpc
    · simp [hpc, inRound] at hround
    · left
      simp only [toReturn, hpc, St.move, Worker.goto]
      omega
  | take k m hpc hk hc hm hq =>
    left
    rcases hpc with hpc | hpc | hpc | hpc
    · simp [hpc, inRound] at hround
    · simp [hpc, inRound] at hround
    · simp only [toReturn, hpc, St.take, Worker.claimed]
      omega
    · simp only [toReturn, hpc, St.take, Worker.claimed]
      omega
  | pending hpc hp hc =>
    have hpos : 0 < toReturn n t s := by
      simp only [toReturn, hpc]
      omega
    rcases hc with hc | ⟨hsend, hq | rfl⟩
    · exact Or.inl (pending_toReturn hw hpc hp h.rxs (Or.inl hc))
    · exact Or.inl (pending_toReturn hw hpc hp h.rxs (Or.inr ⟨hsend, hq⟩))
    · cases t with
      | some i => exact Or.inr ⟨rfl, hpos⟩
      | none => exact absurd (hw _ (place_lt h.rxs hp)).1 (Nat.ne_of_gt hsend)
  | wake hpc hp hopen => exact Or.inl (wake_toReturn h hw hpc hp hopen)
  | drop k polled hpc hk hc hd =>
    left
    have hpos := h.openCount_pos (place_lt h.rxs hk) hc
    obtain ⟨b, hb⟩ := Nat.exists_eq_add_one_of_ne_zero (Nat.pos_iff_ne_zero.1 hpos)
    have hless : (s.worker.fanin.openCount - 1) * (2 * n + 2) + (2 * n + 2) = s.worker.fanin.openCount * (2 * n + 2) := by
      rw [hb, Nat.add_sub_cancel, Nat.add_mul, Nat.one_mul]
    have hafter : toReturn n t { s.move (s.worker.markInput (s.worker.fanin.place k) .anchor) with polled := polled } ≤
        (s.worker.fanin.openCount - 1) * (2 * n + 2) + (n - polled) + (n + 1) + 1 := by
      simp only [toReturn, Worker.markInput, FanIn.mark, St.move]
      exact Nat.add_le_add_right (Nat.add_le_add_left detour_le _) 1
    refine Nat.lt_of_le_of_lt hafter ?_
    simp only [toReturn, hpc]
    omega
  | ended k hpc hk =>
    left
    simp only [toReturn, hpc, St.move, Worker.goto]
    omega
  | pass k hpc hk hc =>
    left
    simp only [toReturn, hpc, St.move, Worker.goto]
    omega
  | lost k hpc hk hc hd =>
    left
    simp only [toReturn, hpc, St.move, Worker.markInput]
    omega

/-- marking a drained input leaves the claim what it counts on -/
theorem Waits.mark (hw : Waits n s t) {i : ℕ} (hd : (s.chan i).drained) {u : St T} (hchan : u.chan = s.chan)
    (hclosed : u.worker.fanin.closed = Function.update s.worker.fanin.closed i true) : Waits n u t := by
  cases t with
  | none => exact fun j hj => by rw [hchan]; exact hw j hj
  | some j =>
    have hij : j ≠ i := by
      rintro rfl
      exact hw.2.2 hd.2
    refine ⟨hw.1, ?_, by rw [hchan]; exact hw.2.2⟩
    rw [hclosed, Function.update_of_ne hij]
    exact hw.2.1

/-- a claim that moves on or parks -/
theorem Waits.same (hw : Waits n s t) {u : St T} (hchan : u.chan = s.chan)
    (hclosed : u.worker.fanin.closed = s.worker.fanin.closed) : Waits n u t := by
  cases t with
  | none => exact fun j hj => by rw [hchan]; exact hw j hj
  | some j => exact ⟨hw.1, by rw [hclosed]; exact hw.2.1, by rw [hchan]; exact hw.2.2⟩

/-- a claim that ends has seen every input closed -/
theorem Waits.done (h : Inv n s) (hw : Waits n s t) (hopen : s.worker.fanin.openCount = 0) (hclaims : s.claims = base) :
    Ends (s.move (s.worker.goto .done)) base t := by
  cases t with
  | none => exact ⟨rfl, hclaims⟩
  | some i =>
    have hclosed := h.all_closed hopen i hw.1
    rw [hw.2.1] at hclosed
    cases hclosed

theorem moves_serving (h : Inv n s) (hw : Waits n s t) (hclaims : s.claims = base) (hm : Moves n blind s s') :
    Serving n t base s' := by
  have hp := h.place
  cases hm with
  | restart k hpc hk hspin => exact Or.inl ⟨rfl, hw.same rfl rfl, hclaims⟩
  | skip k hpc hk hc => exact Or.inl ⟨rfl, hw.same rfl rfl, hclaims⟩
  | look k pc hpc hpc' hk hc =>
    rcases hpc' with rfl | rfl
    · exact Or.inl ⟨rfl, hw.same rfl rfl, hclaims⟩
    · exact Or.inl ⟨rfl, hw.same rfl rfl, hclaims⟩
  | gone k hpc hs => exact Or.inl ⟨rfl, hw.same rfl rfl, hclaims⟩
  | empty k hpc hs =>
    refine Or.inl ⟨by rw [note_worker]; rfl, hw.same (by rw [note_chan]; rfl) (by rw [note_worker]; rfl), ?_⟩
    rw [note_claims]
    exact hclaims
  | closed k hpc hd =>
    refine Or.inl ⟨by rw [note_worker]; rfl, hw.mark hd (by rw [note_chan]; rfl) (by rw [note_worker]; rfl), ?_⟩
    rw [note_claims]
    exact hclaims
  | park k pc hpc hk hopen hpc' =>
    rcases hpc' with rfl | ⟨rfl, -⟩
    · exact Or.inl ⟨rfl, hw.same rfl rfl, hclaims⟩
    · exact Or.inl ⟨rfl, hw.same rfl rfl, hclaims⟩
  | eof hpc hopen => exact Or.inr ⟨rfl, hw.done h hopen hclaims⟩
  | take k m hpc hk hc hm hq =>
    refine Or.inr ⟨rfl, ?_⟩
    cases t with
    | none =>
      rw [(hw _ (place_lt h.rxs hk)).2] at hq
      exact absurd hq (Nat.not_le_of_lt hm)
    | some i =>
      rw [← hclaims]
      exact ⟨_, rfl⟩
  | pending hpc hp hc => exact Or.inl ⟨by rw [hpc]; rfl, hw.same rfl rfl, hclaims⟩
  | wake hpc hp hopen => exact Or.inl ⟨by rw [hpc]; rfl, hw.same rfl rfl, hclaims⟩
  | drop k polled hpc hk hc hd => exact Or.inl ⟨rfl, hw.mark hd rfl rfl, hclaims⟩
  | ended k hpc hk =>
    simp only [PlaceOk, hpc] at hp
    exact Or.inr ⟨rfl, hw.done h (walked_all h hk hp.2) hclaims⟩
  | pass k hpc hk hc => exact Or.inl ⟨rfl, hw.same rfl rfl, hclaims⟩
  | lost k hpc hk hc hd => exact Or.inl ⟨rfl, hw.mark hd rfl rfl, hclaims⟩

/-- the others leave it where it is, and what it counts on -/
theorem others_serving (hsv : Serving n t base s) {a : Act T} (ha : a.leaves t) (hown : a.own = false)
    (hs : step n kind s a = some s') :
    Serving n t base s' ∧ toReturn n t s' = toReturn n t s ∧ budget n s' = budget n s := by
  have hkeep : ∀ (c : ℕ → Chan T) (sent : ℕ → List T) (popped : ℕ → List (Bool × T)),
      (Waits n s t → Waits n { s with chan := c } t) →
      Serving n t base { s with chan := c, sent := sent, popped := popped } := by
    intro c sent popped hwaits
    rcases hsv with ⟨hret, hw, hclaims⟩ | ⟨hret, hends⟩
    · exact Or.inl ⟨hret, (hwaits hw).same rfl rfl, hclaims⟩
    · refine Or.inr ⟨hret, ?_⟩
      cases t with
      | none => exact hends
      | some i => exact hends
  cases a with
  | send i x =>
    simp only [step] at hs
    split_ifs at hs with hi
    cases hs
    refine ⟨hkeep _ _ _ fun hw => ?_, rfl, rfl⟩
    cases t with
    | none => exact absurd (hw i hi.1).1 (Nat.ne_of_gt hi.2.1)
    | some j =>
      refine ⟨hw.1, hw.2.1, ?_⟩
      by_cases hij : j = i
      · subst hij
        simp [Chan.push_queue]
      · simp only [Function.update_of_ne hij]
        exact hw.2.2
  | close i =>
    simp only [step] at hs
    split_ifs at hs with hi
    cases hs
    refine ⟨hkeep _ _ _ fun hw => ?_, rfl, rfl⟩
    cases t with
    | none => exact absurd (hw i hi.1).1 (Nat.ne_of_gt hi.2)
    | some j =>
      refine ⟨hw.1, hw.2.1, ?_⟩
      by_cases hij : j = i
      · subst hij
        simp only [Function.update_self, Chan.dropSender_queue]
        exact hw.2.2
      · simp only [Function.update_of_ne hij]
        exact hw.2.2
  | steal i =>
    rcases hq : (s.chan i).queue with _ | ⟨x, rest⟩
    · simp [step, hq] at hs
    simp only [step, hq] at hs
    split_ifs at hs with hi
    cases hs
    refine ⟨hkeep _ _ _ fun hw => ?_, rfl, rfl⟩
    cases t with
    | none => exact absurd (hw i (Nat.lt_of_not_le hi)).2 (by simp [hq])
    | some j =>
      have hij : j ≠ i := by
        rintro rfl
        exact ha rfl
      refine ⟨hw.1, hw.2.1, ?_⟩
      simp only [Function.update_of_ne hij]
      exact hw.2.2
  | call b => exact absurd ha id
  | poll m => simp [Act.own] at hown

/-- an item of a live input is overlooked by blind steps only, and each of these costs one more budget at most -/
theorem step_serving (h : Inv n s) (hsv : Serving n t base s) {a : Act T} (ha : a.leaves t)
    (hs : step n kind s a = some s') :
    Serving n t base s' ∧ budget n s' ≤ budget n s ∧
      (if a.own then 1 else 0) + toReturn n t s' ≤ (if t.isSome && a.blind kind then budget n s else 0) + toReturn n t s := by
  cases hown : a.own with
  | false =>
    obtain ⟨hsv', hto, hbudget⟩ := others_serving hsv ha hown hs
    refine ⟨hsv', hbudget.le, ?_⟩
    rw [hto, if_neg Bool.false_ne_true, Nat.zero_add]
    exact Nat.le_add_left _ _
  | true =>
    obtain ⟨m, rfl⟩ : ∃ m, a = .poll m := by
      cases a with
      | poll m => exact ⟨m, rfl⟩
      | _ => simp [Act.own] at hown
    rcases hsv with ⟨hret, hw, hclaims⟩ | ⟨hret, -⟩
    · have hm := poll_moves h.rxs h.place hs
      have hbudget := moves_budget hm
      refine ⟨moves_serving h hw hclaims hm, hbudget, ?_⟩
      have hto := toReturn_le_budget (n := n) (t := t) (s := s')
      rw [if_pos rfl]
      rcases moves_toReturn h hw hm with hlt | ⟨hblind, hpos⟩
      · omega
      · rw [if_pos hblind]
        omega
    · simp only [step, poll] at hs
      cases hpc : s.worker.pc with
      | work xs out | done => simp [hpc] at hs
      | _ => simp [hpc, returned] at hret

/-- a claim that can count on something is never stuck -/
theorem poll_waits (h : Inv n s) (hw : Waits n s t) (hret : returned s.worker.pc = false) :
    ∃ m, (.poll m : Act T).blind kind = false ∧ (poll n kind s m).isSome = true := by
  have hp := h.place
  have hopen : s.worker.fanin.openCount ≠ 0 → ∃ k < n, s.worker.fanin.closed (s.worker.fanin.place k) = false ∧
      ((s.chan (s.worker.fanin.place k)).senders = 0 ∨ (s.chan (s.worker.fanin.place k)).queue ≠ []) := by
    intro hopen
    obtain ⟨j, hj, ht, hc⟩ := hw.some_open h hopen
    obtain ⟨k, hk, rfl⟩ := exists_place h hj
    exact ⟨k, hk, hc, hw.ready hj ht⟩
  cases hpc : s.worker.pc with
  | round k | probe k | tryItem k => exact ⟨1, by simp [Act.blind], poll_inRound h (by rw [hpc]; rfl)⟩
  | anchor =>
    cases kind with
    | async =>
      refine ⟨1, by simp [Act.blind], ?_⟩
      simp only [poll, hpc, firstReady]
      split
      · rfl
      · split
        · rfl
        · split
          · rfl
          · split
            · split <;> rfl
            · split <;> rfl
    | sync cap =>
      by_cases hz : s.worker.fanin.openCount = 0
      · exact ⟨0, rfl, by simp [poll, hpc, Worker.anchorStep, hz]⟩
      obtain ⟨k, hk, hc, hready⟩ := hopen hz
      refine ⟨k, by simp [Act.blind], ?_⟩
      simp only [poll, hpc, Worker.anchorStep, hz, if_false, h.rxs, List.length_range, Nat.not_le_of_lt hk, hc, false_or,
        Bool.false_eq_true, Option.isSome_map]
      rw [← h.rxs, ring_at h.rxs hk]
      simp only [St.view, decide_eq_true_eq]
      rcases hq : (s.chan (s.worker.fanin.place k)).queue with _ | ⟨x, rest⟩
      · have hgone := hready.resolve_right fun hne => hne hq
        simp [hgone]
      · simp
  | single k =>
    refine ⟨1, by simp [Act.blind], ?_⟩
    simp only [PlaceOk, hpc] at hp
    simp only [poll, hpc, Worker.singleStep, h.rxs, List.length_range]
    split_ifs with hk hc
    · rfl
    · rfl
    -- the only open input is the awaited one
    have hc' := Bool.eq_false_iff.2 hc
    have hlt := Nat.lt_of_not_le hk
    obtain ⟨k', hk', hopen', hready⟩ := hopen (h.openCount_pos (place_lt h.rxs hlt) hc').ne'
    have hone := hp.1
    rw [h.count] at hone
    have hsame : s.worker.fanin.place k' = s.worker.fanin.place k :=
      Finset.card_le_one.1 hone _ (mem_unmarked.2 ⟨place_lt h.rxs hk', hopen'⟩) _ (mem_unmarked.2 ⟨place_lt h.rxs hlt, hc'⟩)
    rw [hsame] at hready
    rw [← h.rxs, ring_at h.rxs hlt]
    simp only [St.view, decide_eq_true_eq, Option.isSome_map]
    rcases hq : (s.chan (s.worker.fanin.place k)).queue with _ | ⟨x, rest⟩
    · have hgone := hready.resolve_right fun hne => hne hq
      simp [hgone]
    · simp
  | work xs out | done => simp [hpc, returned] at hret
  | _ => simp [PlaceOk, hpc] at hp

theorem leaves_of {a : Act T} (hcall : ∀ b, a ≠ .call b) (hsteal : ∀ i, t = some i → a ≠ .steal i) : a.leaves t := by
  cases a with
  | steal j =>
    intro h
    exact hsteal j h rfl
  | call b => exact absurd rfl (hcall b)
  | _ => trivial

/-- **A claim under way returns.** While it can count on something it is never stuck, and its steps are bounded. -/
theorem run_serving {acts : List (Act T)} (h : Inv n s) (hret : returned s.worker.pc = false) (hw : Waits n s t)
    (hrun : run n kind s acts = some s') (hacts : ∀ a ∈ acts, a.leaves t) :
    acts.countP Act.own ≤ budget n s * ((acts.countP fun a => t.isSome && a.blind kind) + 1) ∧
      (Ends s' s.claims t ∨ s'.claims = s.claims ∧ returned s'.worker.pc = false ∧
        ∃ m, (.poll m : Act T).blind kind = false ∧ (poll n kind s' m).isSome = true) := by
  obtain ⟨⟨h', hsv, -⟩, hle⟩ : (Inv n s' ∧ Serving n t s.claims s' ∧ budget n s' ≤ budget n s) ∧
      acts.countP Act.own + toReturn n t s' ≤
        budget n s * (acts.countP fun a => t.isSome && a.blind kind) + toReturn n t s := by
    refine Machine.run_spends (P := fun u => Inv n u ∧ Serving n t s.claims u ∧ budget n u ≤ budget n s) (toReturn n t) Act.own
      (fun a => t.isSome && a.blind kind) (fun hmem hu hs => ?_) ⟨h, Or.inl ⟨hret, hw, rfl⟩, le_rfl⟩ hrun
    obtain ⟨hsv, hbudget, hto⟩ := step_serving hu.1 hu.2.1 (hacts _ hmem) hs
    refine ⟨⟨step_inv hu.1 hs, hsv, hbudget.trans hu.2.2⟩, hto.trans (Nat.add_le_add_right ?_ _)⟩
    split_ifs
    · exact hu.2.2
    · exact le_rfl
  constructor
  · have hto := toReturn_le_budget (n := n) (t := t) (s := s)
    rw [Nat.mul_add, Nat.mul_one]
    omega
  · rcases hsv with ⟨hret', hw', hclaims⟩ | ⟨-, hends⟩
    · exact Or.inr ⟨hclaims, hret', poll_waits h' hw' hret'⟩
    · exact Or.inl hends

end Serving

/-! ## Fairness -/

/-- where a claim can be while input `i` waits: not past it -/
def Before (n i : ℕ) (w : Worker ℕ T) : Prop :=
  match w.pc with
  | .round k => k ≤ ahead n w.fanin.cursor i
  | .probe k => k ≤ ahead n w.fanin.cursor i
  | .tryItem k => k ≤ ahead n w.fanin.cursor i
  | .work _ _ => True
  | _ => False

/-- since `base` claims and `missed` misses of input `i`: as long as `i` is neither missed again nor served, every claim brings the
cursor closer to it -/
structure Fair (n i base missed : ℕ) (s : St T) : Prop where
  base_le : base ≤ s.claims.length
  missed_le : missed ≤ s.missed i
  near : s.missed i = missed → (∀ c ∈ s.claims.drop base, c.1 ≠ i) → s.worker.fanin.closed i = false ∧
    s.claims.length - base + ahead n s.worker.fanin.cursor i < n ∧ Before n i s.worker

section Fairness

variable {n : ℕ} {kind : Kind} {blind : Bool} {s s' : St T} {i base missed : ℕ}

/-- a step that leaves claims and misses and moves within the round -/
theorem Fair.within (h : Fair n i base missed s) {w : Worker ℕ T} {spins polled : ℕ} (hcur : w.fanin.cursor = s.worker.fanin.cursor)
    (hstep : s.worker.fanin.closed i = false → Before n i s.worker → w.fanin.closed i = false ∧ Before n i w) :
    Fair n i base missed { s with worker := w, spins := spins, polled := polled } where
  base_le := h.base_le
  missed_le := h.missed_le
  near hmiss hserved := by
    obtain ⟨hc, hlt, hb⟩ := h.near hmiss hserved
    obtain ⟨hc', hb'⟩ := hstep hc hb
    exact ⟨hc', by rw [hcur]; exact hlt, hb'⟩

/-- a poll of the input at place `k` that finds nothing -/
theorem Fair.note (h : Fair n i base missed s) (hi : Inv n s) (hin : i < n) {w : Worker ℕ T} {k : ℕ}
    (hpc : w.pc = .round (k + 1)) (hcur : w.fanin.cursor = s.worker.fanin.cursor)
    (hclosed : s.worker.fanin.place k ≠ i → w.fanin.closed i = s.worker.fanin.closed i)
    (hbefore : Before n i s.worker → k ≤ ahead n s.worker.fanin.cursor i) :
    Fair n i base missed ((s.move w).note (s.worker.fanin.place k)) := by
  have hnote : (s.move w).note (s.worker.fanin.place k) =
      { s with worker := w, missed := Function.update s.missed (s.worker.fanin.place k) (s.missed (s.worker.fanin.place k) + 1) } := by
    simp [St.note, St.move, atRound, hpc]
  have hcursor := hi.cursor (Nat.zero_lt_of_lt hin)
  have hplace : s.worker.fanin.place k = (s.worker.fanin.cursor + k) % n := by rw [FanIn.place, hi.rxs, List.length_range]
  rw [hnote]
  by_cases hki : s.worker.fanin.place k = i
  · -- a miss of `i` itself
    have hmore : Function.update s.missed (s.worker.fanin.place k) (s.missed (s.worker.fanin.place k) + 1) i = s.missed i + 1 := by
      rw [hki, Function.update_self]
    have hle := h.missed_le
    refine ⟨h.base_le, (Nat.le_succ_of_le hle).trans_eq hmore.symm, ?_⟩
    intro hmiss
    have hover : s.missed i + 1 = missed := hmore.symm.trans hmiss
    omega
  · have hsame : Function.update s.missed (s.worker.fanin.place k) (s.missed (s.worker.fanin.place k) + 1) i = s.missed i :=
      Function.update_of_ne (fun e => hki e.symm) _ _
    refine ⟨h.base_le, h.missed_le.trans_eq hsame.symm, ?_⟩
    intro hmiss hserved
    obtain ⟨hc, hlt, hb⟩ := h.near (hsame.symm.trans hmiss) hserved
    refine ⟨(hclosed hki).trans hc, by rw [hcur]; exact hlt, ?_⟩
    have hle := hbefore hb
    have hne : k ≠ ahead n s.worker.fanin.cursor i := by
      intro hka
      exact hki (by rw [hplace, hka, place_ahead hcursor hin])
    simp only [Before, hpc, hcur]
    omega

/-- a claim that takes from the input at place `k`: not `i`, so one before it, and the cursor comes closer -/
theorem Fair.take (h : Fair n i base missed s) (hi : Inv n s) (hin : i < n) {k m : ℕ}
    (hbefore : Before n i s.worker → k ≤ ahead n s.worker.fanin.cursor i) :
    Fair n i base missed (s.take (s.worker.claimed (s.worker.fanin.place k) ((s.chan (s.worker.fanin.place k)).queue.take m))
      (s.worker.fanin.place k) m) := by
  have hcursor := hi.cursor (Nat.zero_lt_of_lt hin)
  have hplace : s.worker.fanin.place k = (s.worker.fanin.cursor + k) % n := by rw [FanIn.place, hi.rxs, List.length_range]
  have hdrop : (s.claims ++ [(s.worker.fanin.place k, (s.chan (s.worker.fanin.place k)).queue.take m)]).drop base =
      s.claims.drop base ++ [(s.worker.fanin.place k, (s.chan (s.worker.fanin.place k)).queue.take m)] :=
    List.drop_append_of_le_length h.base_le
  refine ⟨?_, h.missed_le, ?_⟩
  · simp only [St.take, List.length_append, List.length_singleton]
    exact Nat.le_succ_of_le h.base_le
  intro hmiss hserved
  simp only [St.take] at hserved
  rw [hdrop] at hserved
  obtain ⟨hopen, hlt, hb⟩ := h.near hmiss fun c hmem => hserved c (List.mem_append_left _ hmem)
  have hne : s.worker.fanin.place k ≠ i := hserved _ (List.mem_append_right _ (List.mem_singleton_self _))
  have hka : k ≠ ahead n s.worker.fanin.cursor i := by
    intro hka
    exact hne (by rw [hplace, hka, place_ahead hcursor hin])
  have hrot := ahead_rotate hcursor hin (Nat.lt_of_le_of_ne (hbefore hb) hka)
  refine ⟨hopen, ?_, trivial⟩
  have hbase := h.base_le
  simp only [St.take, Worker.claimed, FanIn.rotate, hi.rxs, List.length_range, hplace, List.length_append, List.length_singleton]
  omega

theorem moves_fair (hi : Inv n s) (hin : i < n) (h : Fair n i base missed s) (hm : Moves n blind s s') : Fair n i base missed s' := by
  have hcursor := hi.cursor (Nat.zero_lt_of_lt hin)
  have hahead := ahead_lt hcursor hin
  have hplace : ∀ k, s.worker.fanin.place k = (s.worker.fanin.cursor + k) % n := by
    intro k
    rw [FanIn.place, hi.rxs, List.length_range]
  cases hm with
  | restart k hpc hk hspin =>
    exact h.within rfl fun hc hb => by simp only [Before, hpc] at hb; omega
  | skip k hpc hk hc =>
    refine h.within rfl fun hopen hb => ⟨hopen, ?_⟩
    simp only [Before, hpc] at hb
    have hne : k ≠ ahead n s.worker.fanin.cursor i := by
      rintro rfl
      rw [hplace, place_ahead hcursor hin, hopen] at hc
      cases hc
    change k + 1 ≤ ahead n s.worker.fanin.cursor i
    omega
  | look k pc hpc hpc' hk hc =>
    refine h.within rfl fun hopen hb => ⟨hopen, ?_⟩
    simp only [Before, hpc] at hb
    rcases hpc' with rfl | rfl
    · exact hb
    · exact hb
  | gone k hpc hs =>
    refine h.within rfl fun hopen hb => ⟨hopen, ?_⟩
    simp only [Before, hpc] at hb
    exact hb
  | empty k hpc hs =>
    refine h.note hi hin rfl rfl (fun _ => rfl) fun hb => ?_
    rcases hpc with hpc | hpc
    · simpa only [Before, hpc] using hb
    · simpa only [Before, hpc] using hb
  | closed k hpc hd =>
    refine h.note hi hin rfl rfl ?_ fun hb => by simpa only [Before, hpc] using hb
    intro hne
    simp only [Worker.markInput, FanIn.mark]
    exact Function.update_of_ne (fun e => hne e.symm) _ _
  | park k pc hpc hk hopen hpc' =>
    exact h.within rfl fun hc hb => by simp only [Before, hpc] at hb; omega
  | eof hpc hopen =>
    refine h.within rfl fun hc hb => ?_
    rw [hi.all_closed hopen i hin] at hc
    cases hc
  | take k m hpc hk hc hm hq =>
    refine h.take hi hin fun hb => ?_
    rcases hpc with hpc | hpc | hpc | hpc
    · simpa only [Before, hpc] using hb
    · simpa only [Before, hpc] using hb
    · simp [Before, hpc] at hb
    · simp [Before, hpc] at hb
  | pending hpc hlt hc | wake hpc hlt hopen => exact h.within rfl fun hc hb => by simp [Before, hpc] at hb
  | drop k polled hpc hk hc hd => exact h.within rfl fun hc hb => by simp [Before, hpc] at hb
  | ended k hpc hk => exact h.within rfl fun hc hb => by simp [Before, hpc] at hb
  | pass k hpc hk hc => exact h.within rfl fun hc hb => by simp [Before, hpc] at hb
  | lost k hpc hk hc hd => exact h.within rfl fun hc hb => by simp [Before, hpc] at hb

theorem step_fair (hi : Inv n s) (hin : i < n) (h : Fair n i base missed s) {a : Act T} (hs : step n kind s a = some s') :
    Fair n i base missed s' := by
  cases step_cases hi hs with
  | others _ j c sent popped hj hsent hown hlive => exact ⟨h.base_le, h.missed_le, h.near⟩
  | call budget => exact h.within rfl fun hc _ => ⟨hc, Nat.zero_le _⟩
  | claim m _ hm => exact moves_fair hi hin h hm

theorem run_fair {acts : List (Act T)} (hi : Inv n s) (hin : i < n) (h : Fair n i base missed s)
    (hrun : run n kind s acts = some s') : Fair n i base missed s' := by
  refine (Machine.run_keeps (P := fun s => Inv n s ∧ Fair n i base missed s) (fun _ h hs => ?_) ⟨hi, h⟩ hrun).2
  exact ⟨step_inv h.1 hs, step_fair h.1 hin h.2 hs⟩

/-- between two claims nothing is past input `i`, which has not been seen closed -/
theorem Fair.start (hi : Inv n s) (hin : i < n) (hret : returned s.worker.pc = true) (hopen : s.worker.fanin.closed i = false) :
    Fair n i s.claims.length (s.missed i) s := by
  have hahead := ahead_lt (hi.cursor (Nat.zero_lt_of_lt hin)) hin
  refine ⟨le_rfl, le_rfl, fun _ _ => ⟨hopen, by simpa using hahead, ?_⟩⟩
  have hp := hi.place
  cases hpc : s.worker.pc with
  | work scratch out => simp [Before, hpc]
  | done =>
    simp only [PlaceOk, hpc] at hp
    rw [hp i hin] at hopen
    cases hopen
  | _ => simp [returned, hpc] at hret

theorem run_serves {acts : List (Act T)} {served : List (ℕ × List T)} (hi : Inv n s) (hin : i < n)
    (hret : returned s.worker.pc = true) (hopen : s.worker.fanin.closed i = false) (hrun : run n kind s acts = some s')
    (hmiss : s'.missed i = s.missed i) (hclaims : s'.claims = s.claims ++ served) (hlen : n ≤ served.length) :
    ∃ c ∈ served, c.1 = i := by
  have hend := run_fair hi hin (Fair.start hi hin hret hopen) hrun
  by_contra hnone
  have hserved : ∀ c ∈ s'.claims.drop s.claims.length, c.1 ≠ i := by
    intro c hc hci
    rw [hclaims, List.drop_left] at hc
    exact hnone ⟨c, hc, hci⟩
  obtain ⟨-, hlt, -⟩ := hend.near hmiss hserved
  rw [hclaims, List.length_append] at hlt
  omega

end Fairness

/-! ## Results -/

/-- **Fan-in bookkeeping.** In every reachable state of either fan-in over `n` inputs:
- the open count is the number of inputs not yet seen closed, and the cursor is below `n`;
- whatever stands in an input seen closed, the next step of a claim is the same, takes nothing from it and leaves it closed;
- every item sent on an input has been taken once, in order, or is queued, and what this fan-in took is what its claims handed
  out, in the input's order; no successful claim is empty, and the last one is what the client has;
- after a claim that returned zero every input is closed and drained; a claim called on inputs that are all closed and drained is
  never stuck, hands out nothing, and returns zero within the given number of steps;
- a claim under way, parked or not, when all inputs are closed and drained is never stuck either and returns zero within `budget`
  steps; when an input that it has not seen closed has an item, it is never stuck and hands out an item within `budget` steps, with
  one more budget for each time it overlooks an item, as long as no sibling takes that input's items;
- an input not seen closed, from which no poll of a round comes back without an item, is served within any `n` successful claims. -/
theorem fair_claims {T : Type} (n : ℕ) (kind : Kind) (cap senders : ℕ → ℕ) (acts : List (Act T)) (s : St T)
    (hrun : run n kind (init n cap senders) acts = some s) :
    s.worker.fanin.openCount = (unmarked n s.worker.fanin.closed).card ∧ (0 < n → s.worker.fanin.cursor < n) ∧
    (∀ i, s.worker.fanin.closed i = true →
      (∀ m c, (poll n kind (s.withChan i c) m).map St.worker = (poll n kind s m).map St.worker) ∧
      ∀ m s', poll n kind s m = some s' → s'.chan i = s.chan i ∧ s'.worker.fanin.closed i = true) ∧
    (∀ i, s.sent i = (s.popped i).map Prod.snd ++ (s.chan i).queue ∧ own (s.popped i) = handed s.claims i) ∧
    (∀ c ∈ s.claims, c.1 < n ∧ c.2 ≠ []) ∧
    (∀ xs out, s.worker.pc = .work xs out → s.claims = [] ∧ xs = [] ∨ ∃ i, s.claims.getLast? = some (i, xs)) ∧
    (s.worker.pc = .done → ∀ i < n, (s.chan i).drained) ∧
    (returned s.worker.pc = true → (∀ i < n, (s.chan i).drained) → ∀ budget acts' s',
      run n kind s (.call budget :: acts') = some s' → (∀ a ∈ acts', ∀ b, a ≠ .call b) →
        s'.claims = s.claims ∧ acts'.length ≤ kind.spins budget * (3 * n + 2) + 3 * n + 1 ∧
        (s'.worker.pc = .done ∨ returned s'.worker.pc = false ∧ ∀ m, (poll n kind s' m).isSome = true)) ∧
    (returned s.worker.pc = false → (∀ i < n, (s.chan i).drained) → ∀ acts' s', run n kind s acts' = some s' →
      (∀ a ∈ acts', ∀ b, a ≠ .call b) → acts'.countP Act.own ≤ budget n s ∧
        (s'.worker.pc = .done ∧ s'.claims = s.claims ∨ s'.claims = s.claims ∧ returned s'.worker.pc = false ∧
          ∃ m, (.poll m : Act T).blind kind = false ∧ (poll n kind s' m).isSome = true)) ∧
    (returned s.worker.pc = false → ∀ i < n, s.worker.fanin.closed i = false → (s.chan i).queue ≠ [] → ∀ acts' s',
      run n kind s acts' = some s' → (∀ a ∈ acts', (∀ b, a ≠ .call b) ∧ a ≠ .steal i) →
        acts'.countP Act.own ≤ budget n s * (acts'.countP (Act.blind kind) + 1) ∧
        ((∃ c, s'.claims = s.claims ++ [c]) ∨ s'.claims = s.claims ∧ returned s'.worker.pc = false ∧
          ∃ m, (.poll m : Act T).blind kind = false ∧ (poll n kind s' m).isSome = true)) ∧
    (returned s.worker.pc = true → ∀ i < n, s.worker.fanin.closed i = false → ∀ acts' s' served,
      run n kind s acts' = some s' → s'.missed i = s.missed i → s'.claims = s.claims ++ served → n ≤ served.length →
        ∃ c ∈ served, c.1 = i) := by
  have h : Inv n s := run_inv (init_inv n cap senders) hrun
  have hlast : LastOk s := by
    refine run_last (init_inv n cap senders) ?_ hrun
    intro xs out hw
    cases hw
    exact Or.inl ⟨rfl, rfl⟩
  refine ⟨h.count, h.cursor, ?_, fun i => ⟨h.conserve i, h.handed i⟩, h.nonempty, hlast, ?_, ?_, ?_, ?_, ?_⟩
  · intro i hi
    exact ⟨fun m c => poll_blind h hi c, fun m s' hs => moves_closed hi (poll_moves h.rxs h.place hs)⟩
  · intro hdone i hi
    have hp := h.place
    simp only [PlaceOk, hdone] at hp
    exact h.mark i (hp i hi)
  · intro hret hdrained budget acts' s' hrun' hcalls
    exact call_drained h hret hdrained hrun' hcalls
  · intro hret hdrained acts' s' hrun' hcalls
    obtain ⟨hown, hend⟩ := run_serving (t := none) h hret hdrained hrun' fun a ha => leaves_of (hcalls a ha) (by simp)
    exact ⟨by simpa using hown, hend⟩
  · intro hret i hi hopen hitem acts' s' hrun' hothers
    have hleaves : ∀ a ∈ acts', a.leaves (some i) := by
      intro a ha
      refine leaves_of (hothers a ha).1 fun j hj => ?_
      cases hj
      exact (hothers a ha).2
    obtain ⟨hown, hend⟩ := run_serving (t := some i) h hret ⟨hi, hopen, hitem⟩ hrun' hleaves
    exact ⟨by simpa using hown, hend⟩
  · intro hret i hi hopen acts' s' served hrun' hmiss hclaims hlen
    exact run_serves h hi hret hopen hrun' hmiss hclaims hlen

/-- an async claim on two live inputs that has parked and polled the first one -/
def parkedActs : List (Act ℕ) := .call 0 :: List.replicate 6 (.poll 1)

/-- Two inputs, both served and then closed: the third claim walks over both and returns zero. An async claim that has polled the
first input in its anchor when an item arrives there is never stuck and hands out an item; one that finds both closed instead
returns zero. -/
theorem fair_claims_two :
    (∃ s : St ℕ, run 2 (.sync 4) (init 2 (fun _ => 8) fun _ => 1) [.send 0 10, .send 0 11, .send 1 20, .call 0, .poll 4, .call 0,
        .poll 4, .close 0, .close 1, .call 0, .poll 4, .poll 4, .poll 4, .poll 4, .poll 4, .poll 4, .poll 4] = some s ∧
      s.claims = [(0, [10, 11]), (1, [20])] ∧ s.worker.pc = .done ∧ ∀ i < 2, (s.chan i).drained) ∧
    (∃ s : St ℕ, run 2 .async (init 2 (fun _ => 8) fun _ => 1) (parkedActs ++ [.send 0 7]) = some s ∧ s.worker.pc = .anchor ∧
      s.polled = 1 ∧ ∀ acts' s', run 2 .async s acts' = some s' → (∀ a ∈ acts', (∀ b, a ≠ .call b) ∧ a ≠ .steal 0) →
        acts'.countP Act.own ≤ 25 * (acts'.countP (Act.blind .async) + 1) ∧
        ((∃ c, s'.claims = [] ++ [c]) ∨ s'.claims = [] ∧ returned s'.worker.pc = false ∧
          ∃ m, (.poll m : Act ℕ).blind .async = false ∧ (poll 2 .async s' m).isSome = true)) ∧
    ∃ s : St ℕ, run 2 .async (init 2 (fun _ => 8) fun _ => 1) (parkedActs ++ [.close 0, .close 1]) = some s ∧
      s.worker.pc = .anchor ∧ ∀ acts' s', run 2 .async s acts' = some s' → (∀ a ∈ acts', ∀ b, a ≠ .call b) →
        acts'.countP Act.own ≤ 25 ∧
        (s'.worker.pc = .done ∧ s'.claims = [] ∨ s'.claims = [] ∧ returned s'.worker.pc = false ∧
          ∃ m, (.poll m : Act ℕ).blind .async = false ∧ (poll 2 .async s' m).isSome = true) := by
  refine ⟨?_, ?_, ?_⟩
  · obtain ⟨s, hs, hclaims, hpc⟩ : ∃ s : St ℕ, run 2 (.sync 4) (init 2 (fun _ => 8) fun _ => 1)
        [.send 0 10, .send 0 11, .send 1 20, .call 0, .poll 4, .call 0, .poll 4, .close 0, .close 1, .call 0, .poll 4, .poll 4,
          .poll 4, .poll 4, .poll 4, .poll 4, .poll 4] = some s ∧ s.claims = [(0, [10, 11]), (1, [20])] ∧ s.worker.pc = .done :=
      ⟨_, rfl, rfl, rfl⟩
    obtain ⟨-, -, -, -, -, -, hend, -⟩ := fair_claims 2 (.sync 4) _ _ _ s hs
    exact ⟨s, hs, hclaims, hpc, hend hpc⟩
  · obtain ⟨s, hs, hclaims, hpc, hpolled, hopen, hitem, hbudget⟩ : ∃ s : St ℕ,
        run 2 .async (init 2 (fun _ => 8) fun _ => 1) (parkedActs ++ [.send 0 7]) = some s ∧ s.claims = [] ∧
        s.worker.pc = .anchor ∧ s.polled = 1 ∧ s.worker.fanin.closed 0 = false ∧ (s.chan 0).queue = [7] ∧ budget 2 s = 25 :=
      ⟨_, rfl, rfl, rfl, rfl, rfl, rfl, rfl⟩
    obtain ⟨-, -, -, -, -, -, -, -, -, hserves, -⟩ := fair_claims 2 .async _ _ _ s hs
    have hreturns := hserves (by rw [hpc]; rfl) 0 (by decide) hopen (by simp [hitem])
    rw [hclaims, hbudget] at hreturns
    exact ⟨s, hs, hpc, hpolled, hreturns⟩
  · obtain ⟨s, hs, hclaims, hpc, hfirst, hsecond, hbudget⟩ : ∃ s : St ℕ,
        run 2 .async (init 2 (fun _ => 8) fun _ => 1) (parkedActs ++ [.close 0, .close 1]) = some s ∧ s.claims = [] ∧
        s.worker.pc = .anchor ∧ (s.chan 0).drained ∧ (s.chan 1).drained ∧ budget 2 s = 25 :=
      ⟨_, rfl, rfl, rfl, ⟨rfl, rfl⟩, ⟨rfl, rfl⟩, rfl⟩
    obtain ⟨-, -, -, -, -, -, -, -, hends, -⟩ := fair_claims 2 .async _ _ _ s hs
    have hdrained : ∀ i < 2, (s.chan i).drained := by
      intro i hi
      interval_cases i
      · exact hfirst
      · exact hsecond
    have hreturns := hends (by rw [hpc]; rfl) hdrained
    rw [hclaims, hbudget] at hreturns
    exact ⟨s, hs, hpc, hreturns⟩

end YouPipe.FairClaim
