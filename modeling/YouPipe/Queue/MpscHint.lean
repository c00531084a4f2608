/-
The receiver's copy of the tail in `array_queue_mpsc.rs`. `_start_read` takes a copy that differs from the head for the promise
of an item, and `_read` then waits for its stamp. `pop_batch` keeps the promise by storing `tail_cached.max(head)`, the comment
there gives the reason.

`pop_waits_for_sender`: until the positions have gone through all their words once, whoever waits in `_read` waits for an item
that a sender has claimed. `hang_after_a_turn`: a batch that walks past its copy and over the last word keeps the old copy, and
from then on `pop` waits in an empty queue.
-/
import Mathlib.Tactic
import YouPipe.Core.Laps
import YouPipe.Core.Fifo
import YouPipe.Core.Machine
import YouPipe.Queue.ArrayQueueMpsc

namespace YouPipe.ArrayQueueMpsc

open YouPipe.Ring YouPipe.Fifo
open YouPipe.ArrayQueue (Send)

variable {T : Type} {L : Laps} {s s' : St T} {t : ℕ}

/-! ## The first turn -/

def Recv.isBatch : Recv → Bool
  | .batch _ => true
  | _ => false

/-- a receiver that looks at stamps one item at a time has an item before its copy of the tail -/
def HintRx : Rx T → Prop
  | .stamp k head cached _ => k.isBatch = true ∨ head.moves < cached.moves
  | .take k head cached _ => k.isBatch = true ∨ head.moves < cached.moves
  | .store head cached _ => head.moves ≤ cached.moves
  | _ => True

structure Hinted (s : St T) : Prop where
  le : s.recv.cur.moves ≤ s.recv.cached.moves
  rx : HintRx s.rx

/-- in the first turn the larger word is the later position -/
theorem hint_ge {head cached : Cursor} (hhead : head.word = L.word head.moves) (hcached : cached.word = L.word cached.moves)
    (hlt : head.moves < L.period) : head.moves ≤ (hint cached head).moves := by
  unfold hint
  split_ifs with hword
  · by_contra hless
    have hgrow := Laps.word_lt_word (Nat.lt_of_not_le hless) hlt
    rw [hhead, hcached] at hword
    omega
  · exact le_rfl

theorem recvEnd_hinted {head cached : Cursor} {got : List T} (hhead : head.word = L.word head.moves)
    (hcached : cached.word = L.word cached.moves) (hlt : head.moves < L.period) : HintRx (recvEnd head cached got) := by
  unfold recvEnd
  split_ifs
  · trivial
  · exact hint_ge hhead hcached hlt

theorem recvLook_hinted {k : Recv} {head cached : Cursor} {got : List T} (hhead : head.word = L.word head.moves)
    (hcached : cached.word = L.word cached.moves) (hlt : head.moves < L.period)
    (hitem : k.isBatch = true ∨ head.moves < cached.moves) : HintRx (recvLook k head cached got) := by
  unfold recvLook
  split
  · split_ifs
    · exact hitem
    · exact recvEnd_hinted hhead hcached hlt
  · exact hitem

theorem recvStep_hinted (h : Inv L s) (hh : Hinted s) (hlt : s.sender.cur.moves < L.period)
    (hs : recvStep L s s.rx = some s') : Hinted s' := by
  have hle := h.le
  have hhead := head_le_next s
  have hok := h.rx
  have hrxok := hh.rx
  cases hrx : s.rx with
  | idle =>
    rw [hrx] at hs
    cases hs
  | load k =>
    rw [hrx] at hs
    simp only [recvStep] at hs
    split_ifs at hs with heq
    · cases k <;> (cases hs; exact ⟨hh.le, trivial⟩)
    · cases hs
      refine ⟨hh.le, recvLook_hinted h.head h.tailCopy (by omega) (Or.inr (Nat.lt_of_le_of_ne hh.le fun hsame => heq ?_))⟩
      rw [h.tailCopy, h.head, hsame]
  | tail k head =>
    rw [hrx] at hs hok
    have hcur : head = s.recv.cur := hok
    simp only [recvStep] at hs
    split_ifs at hs with heq
    · cases k <;> (cases hs; exact ⟨hh.le, trivial⟩)
    · cases hs
      rw [hcur] at heq ⊢
      refine ⟨hh.le, recvLook_hinted h.head h.tail_word (by omega) (Or.inr ?_)⟩
      refine Nat.lt_of_le_of_ne (hhead.trans hle) fun hsame => heq ?_
      rw [h.tail_word, h.head, hsame]
  | stamp k head cached got =>
    rw [hrx] at hs hok hrxok
    have hwalk : Walking L s head cached got := hok
    have hcur : head.moves = s.next := by rw [hwalk.head]
    simp only [recvStep] at hs
    split_ifs at hs
    · cases hs
      exact ⟨hh.le, hrxok⟩
    · cases hs
      refine ⟨hh.le, ?_⟩
      change HintRx (recvMiss k head cached got)
      cases k with
      | batch room => exact recvEnd_hinted (by rw [hwalk.head]) hwalk.cached_word (by omega)
      | pop => exact hrxok
      | cached => exact hrxok
  | take k head cached got =>
    rw [hrx] at hs hok hrxok
    obtain ⟨hwalk, hready⟩ := hok
    have hcur : head.moves = s.next := by rw [hwalk.head]
    simp only [recvStep] at hs
    split at hs
    · next x _ =>
      cases hs
      refine ⟨hh.le, ?_⟩
      change HintRx (recvNext k (head.advance L) cached (got ++ [x]))
      cases k with
      | batch room =>
        have hnext : (head.advance L).word = L.word (head.advance L).moves := by
          rw [Cursor.advance, hwalk.head, Laps.advance_word]
        have hbound : (head.advance L).moves < L.period := by
          have hless := hready.2.1
          change head.moves + 1 < L.period
          omega
        exact recvLook_hinted (k := .batch room) hnext hwalk.cached_word hbound (Or.inl rfl)
      | pop => exact hrxok.resolve_left Bool.false_ne_true
      | cached => exact hrxok.resolve_left Bool.false_ne_true
    · cases hs
      exact ⟨hh.le, trivial⟩
  | store head cached got =>
    rw [hrx] at hs hrxok
    cases hs
    exact ⟨hrxok, trivial⟩

theorem step_hinted {a : Act T} (h : Inv L s) (hh : Hinted s) (hlt : s.sender.cur.moves < L.period) (hs : step L s a = some s') :
    Hinted s' := by
  cases a with
  | send t k =>
    simp only [step] at hs
    split at hs
    · cases hs
      exact ⟨hh.le, hh.rx⟩
    · cases hs
  | recv k =>
    simp only [step] at hs
    split at hs
    · cases hs
      exact ⟨hh.le, trivial⟩
    · cases hs
  | run t spurious =>
    obtain ⟨hrecv, hrx, -⟩ := sendStep_frame hs
    exact ⟨by rw [hrecv]; exact hh.le, by rw [hrx]; exact hh.rx⟩
  | recvRun => exact recvStep_hinted h hh hlt hs

theorem recvStep_sent (hs : recvStep L s s.rx = some s') : s'.sent = s.sent := by
  cases hrx : s.rx with
  | idle =>
    rw [hrx] at hs
    cases hs
  | load k =>
    rw [hrx] at hs
    simp only [recvStep] at hs
    split_ifs at hs
    · cases k <;> (cases hs; rfl)
    · cases hs
      rfl
  | tail k head =>
    rw [hrx] at hs
    simp only [recvStep] at hs
    split_ifs at hs
    · cases k <;> (cases hs; rfl)
    · cases hs
      rfl
  | stamp k head cached got =>
    rw [hrx, recvStep] at hs
    split_ifs at hs <;> (cases hs; rfl)
  | take k head cached got =>
    rw [hrx, recvStep] at hs
    split at hs <;> (cases hs; rfl)
  | store head cached got =>
    rw [hrx] at hs
    cases hs
    rfl

theorem step_sent {a : Act T} (hs : step L s a = some s') : s.sent <+: s'.sent := by
  cases a with
  | send t k =>
    simp only [step] at hs
    split at hs <;> cases hs
    exact List.prefix_rfl
  | recv k =>
    simp only [step] at hs
    split at hs <;> cases hs
    exact List.prefix_rfl
  | run t spurious => exact (sendStep_frame hs).2.2
  | recvRun => rw [recvStep_sent hs]

/-- in the first turn no word has come round yet -/
theorem Inv.first_turn (h : Inv L s) (hlt : s.sender.cur.moves < L.period) : Timely L s := by
  have hle := h.le
  have hhead := head_le_next s
  intro t
  cases s.pc t with
  | full k w =>
    change s.recv.cur.moves < w.cached.moves + L.period
    omega
  | cas k w head n =>
    change s.sender.cur.moves < w.cur.moves + L.period
    exact Nat.lt_add_left _ hlt
  | _ => trivial

/-- a run that ends in the first turn was in the first turn all along -/
theorem run_hinted {acts : List (Act T)} (hrun : run L init acts = some s) (hlt : s.sent.length < L.period) :
    Inv L s ∧ Hinted s := by
  refine Machine.run_keeps (P := fun s : St T => s.sent.length < L.period → Inv L s ∧ Hinted s) (fun {a s s'} _ h hs hlt => ?_)
    (fun _ => ⟨init_inv, le_rfl, trivial⟩) hrun hlt
  have hless := (step_sent hs).length_le.trans_lt hlt
  obtain ⟨hinv, hh⟩ := h hless
  have hturn : s.sender.cur.moves < L.period := by rw [hinv.moves]; exact hless
  exact ⟨step_inv (hinv.first_turn hturn) hinv hs, step_hinted hinv hh hturn hs⟩

/-- a receiver that waits in `_read` waits for an item: it is published, or a sender has claimed its place and not yet stamped it -/
theorem pop_waits_for_sender {cap : ℕ} (hpos : 0 < cap) (hle : cap < 2 ^ 31) {acts : List (Act T)} {s : St T}
    (hrun : run (laps cap hpos hle) init acts = some s) (hturn : s.sent.length < (laps cap hpos hle).period)
    {k : Recv} {head cached : Cursor} {got : List T} (hrx : s.rx = .stamp k head cached got) (hk : k.isBatch = false) :
    s.spec.queue ≠ [] ∧ ((∃ s', step (laps cap hpos hle) s .recvRun = some s' ∧ s'.rx = .take k head cached got) ∨
      ∃ t xs pos written, s.pc t = .fill xs pos written ∧ pos.moves ≤ head.moves ∧ head.moves < pos.moves + xs.length) := by
  obtain ⟨hinv, hh⟩ := run_hinted hrun hturn
  have hmoves := hinv.moves
  have hhint := hh.rx
  have hwalk := hinv.rx
  rw [hrx] at hhint hwalk
  have hnext : head.moves = s.next := by rw [Walking.head hwalk]
  have hbefore : head.moves < s.sender.cur.moves :=
    (hhint.resolve_left (by rw [hk]; exact Bool.false_ne_true)).trans_le (Walking.cached_le hwalk)
  refine ⟨fun hnil => ?_, ?_⟩
  · have hlen := List.drop_eq_nil_iff.1 hnil
    have hhead := head_le_next s
    omega
  · by_cases hfill : ∃ t, (s.pc t).fills s.next
    · obtain ⟨t, ht⟩ := hfill
      cases hpc : s.pc t with
      | fill xs pos written =>
        rw [hpc] at ht
        exact Or.inr ⟨t, xs, pos, written, hpc, by rw [hnext]; exact ht.1, by rw [hnext]; exact ht.2⟩
      | _ =>
        rw [hpc] at ht
        exact ht.elim
    · have hready := hinv.ready s.next ⟨le_rfl, by omega, fun t ht => hfill ⟨t, ht⟩⟩
      refine Or.inl ⟨s.await (.take k head cached got), ?_, rfl⟩
      rw [step, hrx, recvStep, if_pos]
      rw [Walking.head hwalk, Laps.index_word, hready]

/-- a sender between its exchange and its write, and a receiver that waits for it -/
def claimedNotWritten : List (Act ℕ) :=
  [.send 0 (.push 7), .run 0 false, .run 0 false, .recv .pop, .recvRun, .recvRun]

theorem pop_waits_for_sender_two : ∃ s, run (laps 2 (by decide) (by decide)) init claimedNotWritten = some s ∧
    s.rx = .stamp .pop ⟨0, 0⟩ ⟨1, 1⟩ [] ∧ s.spec.queue ≠ [] := by
  have hrx : (run (laps 2 (by decide) (by decide)) init claimedNotWritten).map (fun s => (s.rx, s.sent.length)) =
      some (.stamp .pop ⟨0, 0⟩ ⟨1, 1⟩ [], 1) := by decide
  obtain ⟨s, hs, hrx⟩ := Option.map_eq_some_iff.1 hrx
  have hone : s.sent.length = 1 := congrArg Prod.snd hrx
  have hturn : s.sent.length < (laps 2 (by decide) (by decide)).period := by
    rw [hone]
    decide
  have hwait := pop_waits_for_sender (by decide) (by decide) hs hturn (congrArg Prod.fst hrx) rfl
  exact ⟨s, hs, congrArg Prod.fst hrx, hwait.1⟩

/-! ## After the first turn -/

theorem goto_goto (s : St T) (t : ℕ) (pc pc' : Pc T) : (s.goto t pc).goto t pc' = s.goto t pc' := by
  simp only [St.goto, Function.update_idem]

theorem goto_idle (s : St T) (hidle : ∀ u, s.pc u = .idle) (t : ℕ) : s.goto t .idle = s := by
  have hsame : Function.update s.pc t .idle = s.pc := Function.update_eq_self_iff.2 (hidle t).symm
  rw [St.goto, hsame]

/-- a step of a sender reads only its own place in the program -/
theorem step_goto (s : St T) (t : ℕ) (spurious : Bool) (pc : Pc T) :
    step L (s.goto t pc) (.run t spurious) = sendStep L s t spurious pc := by
  rw [step, goto_self]
  cases pc with
  | idle => rfl
  | load k =>
    simp only [sendStep, goto_goto]
    rfl
  | full k w =>
    simp only [sendStep, goto_goto]
    rfl
  | cas k w head n =>
    simp only [sendStep, goto_goto]
    rfl
  | fill xs pos written =>
    cases xs with
    | nil => rfl
    | cons x xs => cases written <;> simp only [sendStep, St.goto, St.setSlot, Function.update_idem]

theorem timely_one {pc : Pc T} (hidle : ∀ u, s.pc u = .idle) (h : pc.timely L s) : Timely L (s.goto t pc) := by
  intro u
  by_cases hu : u = t
  · subst hu
    rw [goto_self]
    cases pc <;> exact h
  · rw [goto_other s hu, hidle u]
    trivial

theorem timely_idle (hidle : ∀ u, s.pc u = .idle) : Timely L s := fun u => by
  rw [hidle u]
  trivial

/-- a sender alone comes to its exchange if there is room -/
theorem to_exchange (h : Inv L s) (hidle : ∀ u, s.pc u = .idle) (hroom : s.sent.length < s.recv.cur.moves + L.cap) (x : T) :
    ∃ head, Machine.Leads (step L) (Timely L) s (s.goto 0 (.cas (.push x) s.sender head 1)) := by
  have hperiod := L.period_pos
  have hlong := L.cap_lt_period
  have hlook := (sendLook_ok h (.push x)).1
  have hmoves := h.moves
  have hhead := head_le_next s
  have hle := h.le
  have hcas : ∀ head, Timely L (s.goto 0 (.cas (.push x) s.sender head 1)) := fun head =>
    timely_one hidle (Nat.lt_add_of_pos_right hperiod)
  have hstart : ∀ {s' : St T}, Machine.Leads (step L) (Timely L) (s.goto 0 (sendLook L (.push x) s.sender)) s' →
      Machine.Leads (step L) (Timely L) s s' := by
    intro s' hrest
    refine .cons (.send 0 (.push x)) (s.goto 0 (.load (.push x))) (timely_idle hidle) ?_ ?_
    · rw [step, hidle 0]
    · refine .cons (.run 0 false) (s.goto 0 (sendLook L (.push x) s.sender)) (timely_one hidle trivial) ?_ hrest
      rw [step_goto]
      rfl
  by_cases hfull : (s.sender.cached.word + L.lap) % L.size = s.sender.cur.word
  · -- full by the copy, which is older than the head
    rw [sendLook, if_pos hfull] at hlook hstart
    have hcopy : s.sender.cur.moves = s.sender.cached.moves + L.cap := hlook.2
    have hne : s.recv.cur.word ≠ s.sender.cached.word := by
      rw [h.head, h.headCopy]
      intro heq
      have hsame := Laps.word_inj heq.symm h.headCopy_le (by omega)
      omega
    have hold : s.recv.cur.moves < s.sender.cached.moves + L.period := by omega
    refine ⟨s.recv.cur, hstart (.cons (.run 0 false) _ (timely_one hidle hold) ?_ (.refl (hcas _)))⟩
    rw [step_goto]
    exact if_neg hne
  · rw [sendLook, if_neg hfull] at hstart
    exact ⟨s.sender.cached, hstart (.refl (hcas _))⟩

/-- a sender alone puts an item into a ring that has room -/
theorem push_alone (h : Inv L s) (hidle : ∀ u, s.pc u = .idle) (hroom : s.sent.length < s.recv.cur.moves + L.cap) (x : T) :
    ∃ s', Machine.Leads (step L) (Timely L) s s' ∧ s'.recv = s.recv ∧ s'.rx = s.rx ∧ s'.sent = s.sent ++ [x] ∧
      ∀ u, s'.pc u = .idle := by
  obtain ⟨head, hhead⟩ := to_exchange h hidle hroom x
  set s₁ : St T := { s.note [.push 0 [x]] with
    sender := ⟨head, ⟨L.advance^[1] s.sender.cur.word, s.sender.cur.moves + 1⟩⟩
    sent := s.sent ++ [x] } with hs₁
  set c := s.slot (L.index s.sender.cur.word) with hc
  set s₂ : St T := { s₁.setSlot (L.index s.sender.cur.word) { c with value := some x } with
    fault := s.fault || c.value.isSome } with hs₂
  refine ⟨s₂.setSlot (L.index s.sender.cur.word) ⟨s.sender.cur.word + 1, some x⟩, hhead.trans ?_, rfl, rfl, rfl, hidle⟩
  refine .cons (.run 0 false) (s₁.goto 0 (.fill [x] s.sender.cur false)) ?_ ?_ ?_
  · exact timely_one hidle (Nat.lt_add_of_pos_right L.period_pos)
  · rw [step_goto, sendStep, if_pos ⟨rfl, rfl, rfl⟩]
    rfl
  refine .cons (.run 0 false) (s₂.goto 0 (.fill [x] s.sender.cur true)) (timely_one hidle trivial) ?_ ?_
  · rw [step_goto]
    rfl
  refine .cons (.run 0 false) _ (timely_one hidle trivial) ?_ (.refl (timely_idle hidle))
  have hslot : s₂.slot (L.index s.sender.cur.word) = ⟨c.stamp, some x⟩ := Function.update_self _ _ _
  rw [step_goto, sendStep, hslot]
  exact congrArg some (goto_idle (s₂.setSlot (L.index s.sender.cur.word) ⟨s.sender.cur.word + 1, some x⟩) hidle 0)

/-- a step of the receiver reads only its own place in the program -/
theorem step_await (s : St T) (rx : Rx T) : step L (s.await rx) .recvRun = recvStep L s rx := by
  cases rx <;> rfl

/-- the receiver alone finds an item that its copy of the tail does not show -/
theorem look_alone (h : Inv L s) (hidle : ∀ u, s.pc u = .idle) (hrx : s.rx = .idle) (hcopy : s.recv.cached.moves = s.recv.cur.moves)
    (hitem : s.recv.cur.moves < s.sent.length) {k : Recv} (hk : k ≠ .cached) :
    Machine.Leads (step L) (Timely L) s (s.await (recvLook k s.recv.cur s.sender.cur [])) := by
  have hmoves := h.moves
  have hroom := h.full_le
  have hlong := L.cap_lt_period
  have htime : ∀ rx, Timely L (s.await rx) := fun rx => timely_idle hidle
  have hsame : s.recv.cached.word = s.recv.cur.word := by rw [h.tailCopy, h.head, hcopy]
  have hne : s.sender.cur.word ≠ s.recv.cur.word := by
    rw [h.tail_word, h.head]
    intro heq
    have := Laps.word_inj heq.symm (by omega) (by omega)
    omega
  refine .cons (.recv k) (s.await (.load k)) (timely_idle hidle) (by rw [step, hrx]) ?_
  refine .cons .recvRun (s.await (.tail k s.recv.cur)) (htime _) ?_ ?_
  · rw [step_await]
    cases k with
    | cached => exact absurd rfl hk
    | pop => exact if_pos hsame
    | batch room => exact if_pos hsame
  refine .cons .recvRun _ (htime _) ?_ (.refl (htime _))
  rw [step_await]
  exact if_neg hne

/-- the receiver alone moves out a published item -/
theorem take_alone (h : Inv L s) (hidle : ∀ u, s.pc u = .idle) {k : Recv} {head cached : Cursor} {got : List T}
    (hrx : s.rx = .stamp k head cached got) (hitem : s.next < s.sent.length) :
    ∃ x, Machine.Leads (step L) (Timely L) s ((s.setSlot (s.next % L.cap) ⟨L.word s.next + 1, none⟩).await
      (recvNext k ⟨L.word (s.next + 1), s.next + 1⟩ cached (got ++ [x]))) := by
  have hmoves := h.moves
  have hwalk := h.rx
  rw [hrx] at hwalk
  have hslot := h.ready s.next ⟨le_rfl, by omega, fun u => by rw [hidle u]; exact id⟩
  obtain ⟨x, hx⟩ : ∃ x, s.sent[s.next]? = some x := ⟨_, List.getElem?_eq_getElem hitem⟩
  rw [hx] at hslot
  refine ⟨x, ?_⟩
  refine .cons .recvRun (s.await (.take k head cached got)) (timely_idle hidle) ?_ ?_
  · rw [step, hrx, recvStep, if_pos]
    rw [Walking.head hwalk, Laps.index_word, hslot]
  refine .cons .recvRun _ (timely_idle hidle) ?_ (.refl (timely_idle hidle))
  rw [step_await, recvStep, Walking.head hwalk, Laps.index_word]
  simp only [hslot]
  rw [Cursor.advance, Laps.advance_word]

/-- no call under way, the queue empty and the receiver's copy of the tail at its head, after `n` items -/
structure Calm (L : Laps) (n : ℕ) (s : St T) : Prop where
  inv : Inv L s
  pcs : ∀ u, s.pc u = .idle
  rx : s.rx = .idle
  sent : s.sent.length = n
  head : s.recv.cur.moves = n
  copy : s.recv.cached.moves = n

theorem Leads.inv (h : Inv L s) (hl : Machine.Leads (step L) (Timely L) s s') : Inv L s' := by
  obtain ⟨acts, hrun, htime⟩ := hl
  exact run_inv h htime hrun

/-- one item through the ring -/
theorem Calm.next {n : ℕ} (h : Calm L n s) (x : T) : ∃ s', Machine.Leads (step L) (Timely L) s s' ∧ Calm L (n + 1) s' := by
  have hcap := L.cap_pos
  obtain ⟨s₁, hpush, hrecv, hrx, hsent, hidle⟩ := push_alone h.inv h.pcs (by rw [h.sent, h.head]; omega) x
  have hinv₁ := Leads.inv h.inv hpush
  have hlen : s₁.sent.length = n + 1 := by rw [hsent, List.length_append, h.sent, List.length_singleton]
  have hlook := look_alone hinv₁ hidle (hrx.trans h.rx) (by rw [hrecv, h.copy, h.head]) (by rw [hrecv, h.head, hlen]; omega)
    (k := .pop) (by intro hk; cases hk)
  have hinv₂ := Leads.inv hinv₁ hlook
  have hnext : (s₁.await (recvLook .pop s₁.recv.cur s₁.sender.cur [])).next = n := by
    change s₁.recv.cur.moves = n
    rw [hrecv, h.head]
  obtain ⟨y, htake⟩ := take_alone hinv₂ hidle rfl (by rw [hnext]; change n < s₁.sent.length; omega)
  rw [hnext] at htake
  set s₃ : St T := (s₁.await (recvLook .pop s₁.recv.cur s₁.sender.cur [])).setSlot (n % L.cap) ⟨L.word n + 1, none⟩ with hs₃
  have hstore : Machine.Leads (step L) (Timely L) (s₃.await (.store ⟨L.word (n + 1), n + 1⟩ s₁.sender.cur [y]))
      { (s₃.await .idle).note [.claim 0 [y], .got 0 [y]] with recv := ⟨s₁.sender.cur, ⟨L.word (n + 1), n + 1⟩⟩ } :=
    .cons .recvRun _ (timely_idle hidle) (step_await _ _) (.refl (timely_idle hidle))
  have hall := hpush.trans (hlook.trans (htake.trans hstore))
  refine ⟨_, hall, Leads.inv h.inv hall, hidle, rfl, hlen, rfl, ?_⟩
  change s₁.sender.cur.moves = n + 1
  rw [hinv₁.moves, hlen]

theorem calm_all [Inhabited T] (n : ℕ) : ∃ s : St T, Machine.Leads (step L) (Timely L) init s ∧ Calm L n s := by
  induction n with
  | zero => exact ⟨init, .refl (timely_idle fun _ => rfl), init_inv, fun _ => rfl, rfl, rfl, rfl, rfl⟩
  | succ n ih =>
    obtain ⟨s, hlead, hcalm⟩ := ih
    obtain ⟨s', hnext, hcalm'⟩ := hcalm.next default
    exact ⟨s', hlead.trans hnext, hcalm'⟩

theorem word_period : L.word L.period = 0 := by
  rw [Laps.word, Laps.period, Nat.mul_div_cancel_left _ L.cap_pos, Nat.mod_self, Nat.mul_mod_right, Nat.zero_mul]

/-- the state after the last items of a turn: the queue is empty, and the copy of the tail is one position behind the head -/
structure Stale (L : Laps) (s : St T) : Prop where
  inv : Inv L s
  pcs : ∀ u, s.pc u = .idle
  rx : s.rx = .idle
  sent : s.sent.length = L.period
  head : s.recv.cur = ⟨0, L.period⟩
  copy : s.recv.cached.word ≠ 0

/-- two items before the end of a turn: a batch that saw one of them takes both -/
theorem Calm.stale {n : ℕ} (h : Calm L n s) (hn : n + 2 = L.period) (hcap : 2 ≤ L.cap) (x : T) :
    ∃ s', Machine.Leads (step L) (Timely L) s s' ∧ Stale L s' := by
  obtain ⟨s₁, hpush₁, hrecv₁, hrx₁, hsent₁, hidle₁⟩ := push_alone h.inv h.pcs (by rw [h.sent, h.head]; omega) x
  have hinv₁ := Leads.inv h.inv hpush₁
  have hlen₁ : s₁.sent.length = n + 1 := by rw [hsent₁, List.length_append, h.sent, List.length_singleton]
  have hlook := look_alone hinv₁ hidle₁ (hrx₁.trans h.rx) (by rw [hrecv₁, h.copy, h.head]) (by rw [hrecv₁, h.head, hlen₁]; omega)
    (k := .batch 2) (by intro hk; cases hk)
  have hinv₂ := Leads.inv hinv₁ hlook
  -- between the load of the tail and the walk another item comes in
  obtain ⟨s₃, hpush₃, hrecv₃, hrx₃, hsent₃, hidle₃⟩ := push_alone hinv₂ hidle₁ (by
    change s₁.sent.length < s₁.recv.cur.moves + L.cap
    rw [hrecv₁, h.head, hlen₁]
    omega) x
  have hinv₃ := Leads.inv hinv₂ hpush₃
  have hlen₃ : s₃.sent.length = n + 2 := by
    rw [hsent₃, List.length_append]
    change s₁.sent.length + 1 = _
    rw [hlen₁]
  have hnext₃ : s₃.next = n := by
    rw [St.next, hrecv₃, hrx₃]
    change s₁.recv.cur.moves = n
    rw [hrecv₁, h.head]
  obtain ⟨y, htake₁⟩ := take_alone hinv₃ hidle₃ hrx₃ (by omega)
  rw [List.nil_append] at htake₁
  have hinv₄ := Leads.inv hinv₃ htake₁
  have hnext₄ : ((s₃.setSlot (s₃.next % L.cap) ⟨L.word s₃.next + 1, none⟩).await
      (recvNext (.batch 2) ⟨L.word (s₃.next + 1), s₃.next + 1⟩ s₁.sender.cur [y])).next = n + 1 := by
    change s₃.recv.cur.moves + 1 = n + 1
    rw [hrecv₃]
    change s₁.recv.cur.moves + 1 = n + 1
    rw [hrecv₁, h.head]
  obtain ⟨z, htake₂⟩ := take_alone hinv₄ hidle₃ rfl (by rw [hnext₄]; change n + 1 < s₃.sent.length; omega)
  rw [hnext₄] at htake₂
  -- the batch ends past the last word: the copy is the larger word
  have hcopy : s₁.sender.cur.word = L.word (n + 1) := by rw [hinv₁.tail_word, hinv₁.moves, hlen₁]
  have hlast : 0 < L.word (n + 1) := by
    calc 0 = L.word 0 := by rw [Laps.word, Nat.zero_div, Nat.zero_mod, Nat.zero_mod, Nat.zero_mul]
      _ < L.word (n + 1) := Laps.word_lt_word (Nat.succ_pos n) (by omega)
  have hzero : (⟨L.word (n + 2), n + 2⟩ : Cursor) = ⟨0, L.period⟩ := by rw [hn, word_period]
  have hend : recvNext (.batch 2) ⟨L.word (n + 2), n + 2⟩ s₁.sender.cur ([y] ++ [z]) = .store ⟨0, L.period⟩ s₁.sender.cur [y, z] := by
    rw [hzero]
    change Rx.store _ (hint s₁.sender.cur ⟨0, L.period⟩) [y, z] = _
    rw [hint, if_pos (by rw [hcopy]; exact hlast)]
  rw [hend] at htake₂
  have hall := hpush₁.trans (hlook.trans (hpush₃.trans (htake₁.trans htake₂)))
  refine ⟨_, hall.trans (.cons .recvRun _ (timely_idle hidle₃) (step_await _ _) (.refl (timely_idle hidle₃))), ?_⟩
  refine ⟨?_, hidle₃, rfl, by rw [← hn]; exact hlen₃, rfl, ?_⟩
  · exact Leads.inv (Leads.inv h.inv hall) (.cons .recvRun _ (timely_idle hidle₃) (step_await _ _) (.refl (timely_idle hidle₃)))
  · change s₁.sender.cur.word ≠ 0
    rw [hcopy]
    exact hlast.ne'

/-- from there `pop` waits for an item nobody has sent -/
theorem Stale.hang (h : Stale L s) (n : ℕ) :
    run L s (.recv .pop :: .recvRun :: List.replicate n .recvRun) = some (s.await (.stamp .pop s.recv.cur s.recv.cached [])) := by
  have hmoves := h.inv.moves
  have hne : s.recv.cached.word ≠ s.recv.cur.word := by
    rw [h.head]
    exact h.copy
  have hnext : s.next = L.period := by
    rw [St.next, h.rx, h.head]
    rfl
  have hstamp : (s.slot (L.index s.recv.cur.word)).stamp ≠ s.recv.cur.word + 1 := by
    intro heq
    rw [h.inv.head, Laps.index_word, h.head] at heq
    have hready := h.inv.ready_next (by rw [hnext]; exact heq)
    have hless := hready.2.1
    rw [hnext, hmoves, h.sent] at hless
    exact Nat.lt_irrefl _ hless
  have hspin : run L (s.await (.stamp .pop s.recv.cur s.recv.cached [])) (List.replicate n .recvRun) =
      some (s.await (.stamp .pop s.recv.cur s.recv.cached [])) := by
    induction n with
    | zero => rfl
    | succ n ih =>
      rw [List.replicate_succ, run, List.foldlM_cons, step_await, recvStep, if_neg hstamp]
      exact ih
  have hload : step L s (.recv .pop) = some (s.await (.load .pop)) := by rw [step, h.rx]
  have hlook : step L (s.await (.load .pop)) .recvRun = some (s.await (.stamp .pop s.recv.cur s.recv.cached [])) := by
    rw [step_await]
    exact if_neg hne
  rw [run, List.foldlM_cons, hload]
  change (step L (s.await (.load .pop)) .recvRun).bind _ = _
  rw [hlook]
  exact hspin

/-- in every ring of at least two places some run of `period` items ends with an empty queue and no call under way, and the next
`pop`, which should answer `empty`, does not return however long it runs -/
theorem hang_after_a_turn {cap : ℕ} (hcap : 2 ≤ cap) (hle : cap < 2 ^ 31) (x : T) :
    ∃ (acts : List (Act T)) (s : St T), Machine.Along (step (laps cap (by omega) hle)) (Timely (laps cap (by omega) hle)) init acts ∧
      run (laps cap (by omega) hle) init acts = some s ∧ s.sent.length = (laps cap (by omega) hle).period ∧ s.spec.queue = [] ∧
      (∀ t, s.pc t = .idle) ∧ s.rx = .idle ∧
      ∀ n, ∃ s', run (laps cap (by omega) hle) s (.recv .pop :: .recvRun :: List.replicate n .recvRun) = some s' ∧
        s'.rx ≠ .idle ∧ s'.log = s.log := by
  set L := laps cap (by omega) hle with hL
  have hperiod := (laps_period cap (by omega) hle).1
  rw [← hL] at hperiod
  have : Inhabited T := ⟨x⟩
  obtain ⟨s₁, hlead, hcalm⟩ := calm_all (T := T) (L := L) (L.period - 2)
  obtain ⟨s, hlast, hstale⟩ := hcalm.stale (by omega) hcap x
  obtain ⟨acts, hrun, htime⟩ := hlead.trans hlast
  refine ⟨acts, s, htime, hrun, hstale.sent, ?_, hstale.pcs, hstale.rx, fun n => ⟨_, hstale.hang n, ?_, rfl⟩⟩
  · rw [St.spec, List.drop_eq_nil_iff, hstale.sent, hstale.head]
  · intro hidle
    cases hidle

theorem hang_after_a_turn_two : ∃ (acts : List (Act ℕ)) (s : St ℕ), run (laps 2 (by decide) (by decide)) init acts = some s ∧
    s.sent.length = 2 ^ 31 ∧ s.spec.queue = [] ∧ s.rx = .idle ∧
    ∀ n, ∃ s', run (laps 2 (by decide) (by decide)) s (.recv .pop :: .recvRun :: List.replicate n .recvRun) = some s' ∧
      s'.rx ≠ .idle := by
  have hperiod : (laps 2 (by decide) (by decide)).period = 2 ^ 31 := by decide
  obtain ⟨acts, s, -, hrun, hsent, hqueue, -, hrx, hhang⟩ := hang_after_a_turn (show 2 ≤ 2 by decide) (by decide) (0 : ℕ)
  refine ⟨acts, s, hrun, hsent.trans hperiod, hqueue, hrx, fun n => ?_⟩
  obtain ⟨s', hs', hwait, -⟩ := hhang n
  exact ⟨s', hs', hwait⟩

end YouPipe.ArrayQueueMpsc
