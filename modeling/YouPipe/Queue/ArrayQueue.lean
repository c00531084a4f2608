/-
The ring of the multi-producer multi-consumer channels (`crossbeam/array_queue.rs`): slots with stamps, a tail that senders move
and a head that receivers move, each by compare-and-exchange, one item or a whole run of slots at a time.

The machine runs any number of threads, one atomic access per step: the load of a cursor or a stamp, an exchange, the write or the
read of a slot's value, the store of its stamp. A weak exchange may fail though the words are equal. Cursors are 64-bit words that
start again after `turns` laps; each remembers in `moves` how often it moved, which no branch looks at.
-/
import Mathlib.Tactic
import YouPipe.Core.Word
import YouPipe.Core.Laps
import YouPipe.Core.Fifo
import YouPipe.Core.Machine

namespace YouPipe.ArrayQueue

open YouPipe.Ring YouPipe.Fifo

/-- `ArrayQueue::new`; `Array::new` admits capacities up to `u32::MAX` -/
def laps (cap : ℕ) (hpos : 0 < cap) (hle : cap < 2 ^ 32) : Laps where
  cap := cap
  lap := Word.nextPowerOfTwo (cap + 1)
  turns := Word.word / Word.nextPowerOfTwo (cap + 1)
  bits := Nat.clog 2 (cap + 1)
  lap_eq := Word.nextPowerOfTwo_eq_clog (by omega)
  cap_pos := hpos
  cap_lt := by
    rw [Word.nextPowerOfTwo_eq_clog (by omega)]
    exact Nat.le_pow_clog Nat.one_lt_two (cap + 1)
  two_le := by
    have hclog : Nat.clog 2 (cap + 1) ≤ 32 := Nat.clog_le_of_le_pow hle
    rw [Word.nextPowerOfTwo_eq_clog (by omega), Word.word, Nat.pow_div (by omega) Nat.two_pos]
    exact Nat.le_self_pow (by omega) 2

variable {T : Type}

/-! ## The queue -/

/-- what a sender calls: `push_with_ptr`, `try_push_oneshot`, `try_push_batch` with the attempts left -/
inductive Send (T : Type)
  | push (x : T)
  | oneshot (x : T)
  | batch (xs : List T) (tries : ℕ)
deriving DecidableEq, Repr

def Send.items : Send T → List T
  | .push x => [x]
  | .oneshot x => [x]
  | .batch xs _ => xs

/-- the exchange is a `compare_exchange_weak` -/
def Send.weak : Send T → Bool
  | .push _ => true
  | .oneshot _ => true
  | .batch _ _ => false

/-- what a receiver calls: `pop` (`start_read`, then `read`), `pop_batch` into `room` places with the attempts left -/
inductive Recv
  | pop
  | batch (room tries : ℕ)
deriving DecidableEq, Repr

def Recv.room : Recv → ℕ
  | .pop => 1
  | .batch room _ => room

def Recv.weak : Recv → Bool
  | .pop => true
  | .batch _ _ => false

inductive Pc (T : Type)
  | idle
  /-- load `tail` -/
  | sendLoad (k : Send T)
  /-- `check_full!`: load `head` -/
  | sendFull (k : Send T) (tail : Cursor)
  /-- load the stamp at `pos`, `n` slots from `tail` on are free -/
  | sendWalk (k : Send T) (tail pos : Cursor) (n : ℕ)
  | sendCas (k : Send T) (tail pos : Cursor) (n : ℕ)
  /-- `write_claimed`: the items still to be published, the first of them at `pos` -/
  | fill (xs : List T) (pos : Cursor) (written : Bool)
  | recvLoad (k : Recv)
  /-- load the stamp at `pos`, `n` slots from `head` on are ready -/
  | recvWalk (k : Recv) (head pos : Cursor) (n : ℕ)
  /-- the slot is not written in this lap: load `tail` -/
  | recvEmpty (k : Recv) (head : Cursor)
  | recvCas (k : Recv) (head pos : Cursor) (n : ℕ)
  /-- `n` slots still to be freed, the first of them at `pos` -/
  | drain (n : ℕ) (pos : Cursor) (item : Option T) (got : List T)
deriving DecidableEq, Repr

def Pc.isIdle : Pc T → Bool
  | .idle => true
  | _ => false

structure St (T : Type) where
  head : Cursor
  tail : Cursor
  slot : ℕ → Slot T
  pc : ℕ → Pc T
  /-- the items of all positions claimed by senders -/
  sent : List T
  log : List (Event T)
  /-- a value was written over a live one, or read where there is none -/
  fault : Bool

/-- slot `i` has the stamp `{ lap: 0, index: i }` -/
def init : St T where
  head := ⟨0, 0⟩
  tail := ⟨0, 0⟩
  slot := fun i => ⟨i, none⟩
  pc := fun _ => .idle
  sent := []
  log := []
  fault := false

namespace St

def goto (s : St T) (t : ℕ) (pc : Pc T) : St T := { s with pc := Function.update s.pc t pc }

def note (s : St T) (e : Event T) : St T := { s with log := s.log ++ [e] }

def setSlot (s : St T) (i : ℕ) (c : Slot T) : St T := { s with slot := Function.update s.slot i c }

end St

/-! ## Senders -/

section Steps

variable (L : Laps)

/-- after `n` free slots: look at the next one, or stop -/
def sendNext (k : Send T) (tail pos : Cursor) (n : ℕ) : Pc T :=
  if n < k.items.length then .sendWalk k tail pos n
  else if n = 0 then .idle
  else .sendCas k tail pos n

/-- the first slot is not free -/
def sendMiss (k : Send T) (tail : Cursor) (stamp : ℕ) : Pc T :=
  match k with
  | .push _ => if (stamp + L.lap) % L.size = tail.word + 1 then .sendFull k tail else .sendLoad k
  | .oneshot _ => .idle
  | .batch _ _ => .idle

/-- the exchange failed, `tail` is what it found -/
def sendRetry (k : Send T) (tail : Cursor) : Pc T :=
  match k with
  | .push _ => .sendWalk k tail tail 0
  | .oneshot _ => .idle
  | .batch xs tries => if 1 < tries then sendNext (.batch xs (tries - 1)) tail tail 0 else .idle

def sendStep (s : St T) (t : ℕ) (spurious : Bool) : Pc T → Option (St T)
  | .sendLoad k =>
    match k with
    | .oneshot _ => some (s.goto t (.sendFull k s.tail))
    | _ => some (s.goto t (sendNext k s.tail s.tail 0))
  | .sendFull k tail =>
    if (s.head.word + L.lap) % L.size = tail.word then some ((s.goto t .idle).note (.full t))
    else
      match k with
      | .oneshot _ => some (s.goto t (.sendWalk k tail tail 0))
      | _ => some (s.goto t (.sendLoad k))
  | .sendWalk k tail pos n =>
    let stamp := (s.slot (L.index pos.word)).stamp
    if stamp = pos.word then some (s.goto t (sendNext k tail (pos.advance L) (n + 1)))
    else if n = 0 then some (s.goto t (sendMiss L k tail stamp))
    else some (s.goto t (.sendCas k tail pos n))
  | .sendCas k tail pos n =>
    if s.tail.word = tail.word ∧ (spurious && k.weak) = false then
      some { (s.goto t (.fill (k.items.take n) ⟨tail.word, s.tail.moves⟩ false)).note (.push t (k.items.take n)) with
        tail := ⟨pos.word, s.tail.moves + n⟩
        sent := s.sent ++ k.items.take n }
    else some (s.goto t (sendRetry k s.tail))
  | .fill (x :: xs) pos false =>
    let c := s.slot (L.index pos.word)
    some { (s.setSlot (L.index pos.word) { c with value := some x }).goto t (.fill (x :: xs) pos true) with
      fault := s.fault || c.value.isSome }
  | .fill (_ :: xs) pos true =>
    let c := s.slot (L.index pos.word)
    some ((s.setSlot (L.index pos.word) { c with stamp := pos.word + 1 }).goto t
      (if xs.isEmpty then .idle else .fill xs (pos.advance L) false))
  | _ => none

/-! ## Receivers -/

def recvNext (k : Recv) (head pos : Cursor) (n : ℕ) : Pc T :=
  if n < k.room then .recvWalk k head pos n
  else if n = 0 then .idle
  else .recvCas k head pos n

/-- the first slot is not ready -/
def recvMiss (k : Recv) (head : Cursor) (stamp : ℕ) : Pc T :=
  match k with
  | .pop => if stamp = head.word then .recvEmpty k head else .recvLoad k
  | .batch _ _ => .idle

def recvRetry (k : Recv) (head : Cursor) : Pc T :=
  match k with
  | .pop => .recvWalk k head head 0
  | .batch room tries => if 1 < tries then recvNext (.batch room (tries - 1)) head head 0 else .idle

def recvStep (s : St T) (t : ℕ) (spurious : Bool) : Pc T → Option (St T)
  | .recvLoad k => some (s.goto t (recvNext k s.head s.head 0))
  | .recvWalk k head pos n =>
    let stamp := (s.slot (L.index pos.word)).stamp
    if stamp = pos.word + 1 then some (s.goto t (recvNext k head (pos.advance L) (n + 1)))
    else if n = 0 then some (s.goto t (recvMiss k head stamp))
    else some (s.goto t (.recvCas k head pos n))
  | .recvEmpty k head =>
    if s.tail.word = head.word then some ((s.goto t .idle).note (.empty t)) else some (s.goto t (.recvLoad k))
  | .recvCas k head pos n =>
    if s.head.word = head.word ∧ (spurious && k.weak) = false then
      some { (s.goto t (.drain n ⟨head.word, s.head.moves⟩ none [])).note (.claim t ((s.sent.drop s.head.moves).take n)) with
        head := ⟨pos.word, s.head.moves + n⟩ }
    else some (s.goto t (recvRetry k s.head))
  | .drain (n + 1) pos none got =>
    let c := s.slot (L.index pos.word)
    match c.value with
    | some x => some ((s.setSlot (L.index pos.word) { c with value := none }).goto t (.drain (n + 1) pos (some x) got))
    | none => some { s.goto t .idle with fault := true }
  | .drain (n + 1) pos (some x) got =>
    let c := s.slot (L.index pos.word)
    let freed := s.setSlot (L.index pos.word) { c with stamp := (pos.word + L.lap) % L.size }
    if n = 0 then some ((freed.goto t .idle).note (.got t (got ++ [x])))
    else some (freed.goto t (.drain n (pos.advance L) none (got ++ [x])))
  | _ => none

/-! ## Runs -/

inductive Act (T : Type)
  | send (t : ℕ) (k : Send T)
  | recv (t : ℕ) (k : Recv)
  | run (t : ℕ) (spurious : Bool)
deriving DecidableEq, Repr

def step (s : St T) : Act T → Option (St T)
  | .send t k => if (s.pc t).isIdle then some (s.goto t (.sendLoad k)) else none
  | .recv t k => if (s.pc t).isIdle then some (s.goto t (.recvLoad k)) else none
  | .run t spurious => (sendStep L s t spurious (s.pc t)).or (recvStep L s t spurious (s.pc t))

def run (s : St T) (acts : List (Act T)) : Option (St T) := acts.foldlM (step L) s

end Steps

/-! ## Claims -/

/-- a sender has claimed position `p` and not published it -/
def Pc.fills : Pc T → ℕ → Prop
  | .fill xs pos _, p => pos.moves ≤ p ∧ p < pos.moves + xs.length
  | _, _ => False

/-- a receiver has claimed position `p` and not freed its slot -/
def Pc.drains : Pc T → ℕ → Prop
  | .drain n pos _ _, p => pos.moves ≤ p ∧ p < pos.moves + n
  | _, _ => False

/-- no claim under way -/
def Pc.quiet : Pc T → Bool
  | .fill _ _ _ => false
  | .drain _ _ _ _ => false
  | _ => true

/-- what a claim under way will hand out -/
def Pc.held (sent : List T) : Pc T → List T
  | .drain n pos _ got => got ++ (sent.drop pos.moves).take n
  | _ => []

/-- the queue this state stands for -/
def St.spec (s : St T) : Spec T := ⟨s.sent.drop s.head.moves, fun t => (s.pc t).held s.sent⟩

section Claims

variable (L : Laps)

/-- position `p` can be claimed by a sender: its slot was freed in the lap before -/
def Free (s : St T) (p : ℕ) : Prop := p < s.head.moves + L.cap ∧ ∀ u q, (s.pc u).drains q → q + L.cap ≠ p

/-- position `p` can be claimed by a receiver: its item is published -/
def Ready (s : St T) (p : ℕ) : Prop := p < s.tail.moves ∧ ∀ u, ¬ (s.pc u).fills p

/-- a cursor loaded earlier -/
structure Seen (c now : Cursor) : Prop where
  word : c.word = L.word c.moves
  le : c.moves ≤ now.moves

/-- a walk over `n` positions that found each of them as `good`, if the cursor has not moved since -/
structure Walked (c now pos : Cursor) (n : ℕ) (good : ℕ → Prop) : Prop where
  seen : Seen L c now
  pos : pos = ⟨L.word (c.moves + n), c.moves + n⟩
  good : c.moves = now.moves → ∀ p, c.moves ≤ p → p < c.moves + n → good p

/-- a run of claimed positions being published: the first slot may be written, the others are as they were -/
structure Filling (s : St T) (xs : List T) (pos : Cursor) (written : Bool) : Prop where
  word : pos.word = L.word pos.moves
  some : 0 < xs.length
  ge : s.head.moves ≤ pos.moves
  le : pos.moves + xs.length ≤ s.tail.moves
  items : xs <+: s.sent.drop pos.moves
  first : s.slot (pos.moves % L.cap) = ⟨L.word pos.moves, if written then s.sent[pos.moves]? else none⟩
  rest : ∀ p, pos.moves < p → p < pos.moves + xs.length → s.slot (p % L.cap) = ⟨L.word p, none⟩

/-- a run of claimed positions being freed: the first item may be read already -/
structure Draining (s : St T) (n : ℕ) (pos : Cursor) (item : Option T) : Prop where
  word : pos.word = L.word pos.moves
  some : 0 < n
  le : pos.moves + n ≤ s.head.moves
  ge : s.tail.moves ≤ pos.moves + L.cap
  read : ∀ x, item = Option.some x → s.sent[pos.moves]? = Option.some x
  first : s.slot (pos.moves % L.cap) = ⟨L.word pos.moves + 1, if item.isSome then none else s.sent[pos.moves]?⟩
  rest : ∀ p, pos.moves < p → p < pos.moves + n → s.slot (p % L.cap) = ⟨L.word p + 1, s.sent[p]?⟩

/-- what a thread knows -/
def PcOk (s : St T) : Pc T → Prop
  | .sendFull _ tail => Seen L tail s.tail
  | .sendWalk k tail pos n => Walked L tail s.tail pos n (Free L s) ∧ n < k.items.length
  | .sendCas k tail pos n => Walked L tail s.tail pos n (Free L s) ∧ 0 < n ∧ n ≤ k.items.length
  | .fill xs pos written => Filling L s xs pos written
  | .recvEmpty _ head => Seen L head s.head
  | .recvWalk k head pos n => Walked L head s.head pos n (Ready s) ∧ n < k.room
  | .recvCas _ head pos n => Walked L head s.head pos n (Ready s) ∧ 0 < n
  | .drain n pos item _ => Draining L s n pos item
  | _ => True

structure Inv (s : St T) : Prop where
  tail : s.tail = ⟨L.word s.sent.length, s.sent.length⟩
  head : s.head.word = L.word s.head.moves
  le : s.head.moves ≤ s.tail.moves
  room : s.tail.moves ≤ s.head.moves + L.cap
  free : ∀ p, s.tail.moves ≤ p → Free L s p → s.slot (p % L.cap) = ⟨L.word p, none⟩
  ready : ∀ p, s.head.moves ≤ p → Ready s p → s.slot (p % L.cap) = ⟨L.word p + 1, s.sent[p]?⟩
  pcs : ∀ t, PcOk L s (s.pc t)
  oneFiller : ∀ t u p, (s.pc t).fills p → (s.pc u).fills p → t = u
  oneDrainer : ∀ t u p, (s.pc t).drains p → (s.pc u).drains p → t = u
  sound : s.fault = false
  accepted : Accepts L.cap s.log s.spec

/-- the words the thread will compare with the cursors are less than a period old -/
def Pc.timely (s : St T) : Pc T → Prop
  | .sendFull _ tail => s.tail.moves + L.cap < tail.moves + L.period
  | .sendWalk _ tail _ _ => s.tail.moves + L.cap < tail.moves + L.period
  | .sendCas _ tail _ _ => s.tail.moves + L.cap < tail.moves + L.period
  | .recvEmpty _ head => s.head.moves + L.cap < head.moves + L.period
  | .recvWalk _ head _ _ => s.head.moves + L.cap < head.moves + L.period
  | .recvCas _ head _ _ => s.head.moves + L.cap < head.moves + L.period
  | _ => True

def Timely (s : St T) : Prop := ∀ t, (s.pc t).timely L s

end Claims

section Invariant

variable {L : Laps} {s s' : St T} {t : ℕ}

theorem init_inv : Inv L (init : St T) where
  tail := by simp [init, Laps.word]
  head := by simp [init, Laps.word]
  le := le_rfl
  room := Nat.zero_le _
  free p _ hp := by
    have hlt : p < L.cap := by simpa [init] using hp.1
    simp [init, Laps.word, Nat.div_eq_of_lt hlt, Nat.mod_eq_of_lt hlt]
  ready p _ hp := absurd hp.1 (Nat.not_lt_zero p)
  pcs _ := trivial
  oneFiller _ _ _ ht := ht.elim
  oneDrainer _ _ _ ht := ht.elim
  sound := rfl
  accepted := .nil

theorem Pc.not_fills {pc : Pc T} (h : pc.quiet = true) (p : ℕ) : ¬ pc.fills p := by
  cases pc <;> first | exact id | cases h

theorem Pc.not_drains {pc : Pc T} (h : pc.quiet = true) (p : ℕ) : ¬ pc.drains p := by
  cases pc <;> first | exact id | cases h

theorem Pc.held_quiet {pc : Pc T} (h : pc.quiet = true) (sent : List T) : pc.held sent = [] := by
  cases pc <;> first | rfl | cases h

/-- a claim of a sender lies between head and tail -/
theorem Inv.fills_bounds (h : Inv L s) {p : ℕ} (hp : (s.pc t).fills p) : s.head.moves ≤ p ∧ p < s.tail.moves := by
  have hok := h.pcs t
  cases hpc : s.pc t with
  | fill xs pos written =>
    rw [hpc] at hok hp
    exact ⟨hok.ge.trans hp.1, hp.2.trans_le hok.le⟩
  | _ =>
    rw [hpc] at hp
    exact hp.elim

/-- a claim of a receiver lies before the head, and its slot is not claimed again -/
theorem Inv.drains_bounds (h : Inv L s) {p : ℕ} (hp : (s.pc t).drains p) : p < s.head.moves ∧ s.tail.moves ≤ p + L.cap := by
  have hok := h.pcs t
  cases hpc : s.pc t with
  | drain n pos item got =>
    rw [hpc] at hok hp
    exact ⟨hp.2.trans_le hok.le, hok.ge.trans (Nat.add_le_add_right hp.1 _)⟩
  | _ =>
    rw [hpc] at hp
    exact hp.elim

theorem Inv.fills_stamp (h : Inv L s) {p : ℕ} (hp : (s.pc t).fills p) : (s.slot (p % L.cap)).stamp = L.word p := by
  have hok := h.pcs t
  cases hpc : s.pc t with
  | fill xs pos written =>
    rw [hpc] at hok hp
    rcases Nat.eq_or_lt_of_le hp.1 with rfl | hlt
    · rw [hok.first]
    · rw [hok.rest p hlt hp.2]
  | _ =>
    rw [hpc] at hp
    exact hp.elim

theorem Inv.drains_stamp (h : Inv L s) {p : ℕ} (hp : (s.pc t).drains p) : (s.slot (p % L.cap)).stamp = L.word p + 1 := by
  have hok := h.pcs t
  cases hpc : s.pc t with
  | drain n pos item got =>
    rw [hpc] at hok hp
    rcases Nat.eq_or_lt_of_le hp.1 with rfl | hlt
    · rw [hok.first]
    · rw [hok.rest p hlt hp.2]
  | _ =>
    rw [hpc] at hp
    exact hp.elim

/-- what a thread knows stays true when the cursors only grow and its own claims are left alone -/
theorem PcOk.frame {pc : Pc T} (h : PcOk L s pc) (hhead : s.head.moves ≤ s'.head.moves) (htail : s.tail.moves ≤ s'.tail.moves)
    (hle : s.head.moves ≤ s.tail.moves) (hsent : s.sent <+: s'.sent) (hitem : ∀ p < s.tail.moves, s'.sent[p]? = s.sent[p]?)
    (hfree : ∀ p, s.tail.moves ≤ p → Free L s p → Free L s' p) (hready : ∀ p, Ready s p → Ready s' p)
    (hfill : ∀ p, pc.fills p → s'.head.moves ≤ p ∧ s'.slot (p % L.cap) = s.slot (p % L.cap))
    (hdrain : ∀ p, pc.drains p → s'.tail.moves ≤ p + L.cap ∧ s'.slot (p % L.cap) = s.slot (p % L.cap)) : PcOk L s' pc := by
  have hwalk : ∀ {c now now' pos : Cursor} {n : ℕ} {good good' : ℕ → Prop}, now.moves ≤ now'.moves →
      (∀ p, now.moves ≤ p → good p → good' p) → Walked L c now pos n good → Walked L c now' pos n good' := by
    intro c now now' pos n good good' hnow hgood hw
    refine ⟨⟨hw.seen.word, hw.seen.le.trans hnow⟩, hw.pos, fun heq p hp hlt => ?_⟩
    have hsame : c.moves = now.moves := le_antisymm hw.seen.le (heq ▸ hnow)
    exact hgood p (hsame ▸ hp) (hw.good hsame p hp hlt)
  cases pc with
  | idle => trivial
  | sendLoad k => trivial
  | recvLoad k => trivial
  | sendFull k tail => exact ⟨h.word, h.le.trans htail⟩
  | recvEmpty k head => exact ⟨h.word, h.le.trans hhead⟩
  | sendWalk k tail pos n => exact ⟨hwalk htail hfree h.1, h.2⟩
  | sendCas k tail pos n => exact ⟨hwalk htail hfree h.1, h.2⟩
  | recvWalk k head pos n => exact ⟨hwalk hhead (fun p _ => hready p) h.1, h.2⟩
  | recvCas k head pos n => exact ⟨hwalk hhead (fun p _ => hready p) h.1, h.2⟩
  | fill xs pos written =>
    have hown : ∀ p, pos.moves ≤ p → p < pos.moves + xs.length → s'.head.moves ≤ p ∧ s'.slot (p % L.cap) = s.slot (p % L.cap) :=
      fun p hp hlt => hfill p ⟨hp, hlt⟩
    have hpos := Nat.lt_add_of_pos_right (n := pos.moves) h.some
    refine ⟨h.word, h.some, (hown _ le_rfl hpos).1, h.le.trans htail, ?_, ?_, fun p hp hlt => ?_⟩
    · exact h.items.trans (hsent.drop _)
    · rw [(hown _ le_rfl hpos).2, h.first, hitem _ (hpos.trans_le h.le)]
    · rw [(hown p hp.le hlt).2, h.rest p hp hlt]
  | drain n pos item got =>
    have hown : ∀ p, pos.moves ≤ p → p < pos.moves + n → s'.tail.moves ≤ p + L.cap ∧ s'.slot (p % L.cap) = s.slot (p % L.cap) :=
      fun p hp hlt => hdrain p ⟨hp, hlt⟩
    have hpos := Nat.lt_add_of_pos_right (n := pos.moves) h.some
    have hold : ∀ p, p < pos.moves + n → s'.sent[p]? = s.sent[p]? := fun p hlt => hitem p ((hlt.trans_le h.le).trans_le hle)
    refine ⟨h.word, h.some, h.le.trans hhead, (hown _ le_rfl hpos).1, fun x hx => ?_, ?_, fun p hp hlt => ?_⟩
    · rw [hold _ hpos, h.read x hx]
    · rw [(hown _ le_rfl hpos).2, h.first, hold _ hpos]
    · rw [(hown p hp.le hlt).2, h.rest p hp hlt, hold p hlt]

theorem goto_self (s : St T) (t : ℕ) (pc : Pc T) : (s.goto t pc).pc t = pc := by simp [St.goto]

theorem goto_other (s : St T) {t u : ℕ} (h : u ≠ t) (pc : Pc T) : (s.goto t pc).pc u = s.pc u := by
  simp [St.goto, h]

/-- the claims of everyone, when thread `t` goes from no claim to no claim -/
theorem goto_claims {pc : Pc T} (hq : (s.pc t).quiet = true) (hq' : pc.quiet = true) (u p : ℕ) :
    (((s.goto t pc).pc u).fills p ↔ (s.pc u).fills p) ∧ (((s.goto t pc).pc u).drains p ↔ (s.pc u).drains p) := by
  by_cases hu : u = t
  · subst hu
    rw [goto_self]
    exact ⟨iff_of_false (pc.not_fills hq' p) (Pc.not_fills hq p), iff_of_false (pc.not_drains hq' p) (Pc.not_drains hq p)⟩
  · rw [goto_other s hu]
    exact ⟨Iff.rfl, Iff.rfl⟩

/-- a step without a claim -/
theorem Inv.quiet (h : Inv L s) {pc : Pc T} (hq : (s.pc t).quiet = true) (hq' : pc.quiet = true) (hok : PcOk L s pc) :
    Inv L (s.goto t pc) := by
  have hfree : ∀ p, Free L (s.goto t pc) p ↔ Free L s p := fun p =>
    and_congr_right fun _ => forall₂_congr fun u q => imp_congr_left (goto_claims hq hq' u q).2
  have hready : ∀ p, Ready (s.goto t pc) p ↔ Ready s p := fun p =>
    and_congr_right fun _ => forall_congr' fun u => not_congr (goto_claims hq hq' u p).1
  have hframe : ∀ {pc'}, PcOk L s pc' → (∀ p, pc'.fills p → s.head.moves ≤ p) → (∀ p, pc'.drains p → s.tail.moves ≤ p + L.cap) →
      PcOk L (s.goto t pc) pc' := fun hpc hf hd =>
    hpc.frame le_rfl le_rfl h.le (List.prefix_refl _) (fun _ _ => rfl) (fun p _ => (hfree p).2) (fun p => (hready p).2)
      (fun p hp => ⟨hf p hp, rfl⟩) fun p hp => ⟨hd p hp, rfl⟩
  have hspec : (s.goto t pc).spec = s.spec := by
    unfold St.spec
    congr 1
    funext u
    by_cases hu : u = t
    · subst hu
      rw [goto_self, Pc.held_quiet hq', Pc.held_quiet hq]
    · rw [goto_other s hu]
      rfl
  refine ⟨h.tail, h.head, h.le, h.room, fun p hp hf => h.free p hp ((hfree p).1 hf), fun p hp hr => h.ready p hp ((hready p).1 hr),
    fun u => ?_, fun u v p hu hv => ?_, fun u v p hu hv => ?_, h.sound, by rw [hspec]; exact h.accepted⟩
  · by_cases hu : u = t
    · subst hu
      rw [goto_self]
      exact hframe hok (fun p hp => (pc.not_fills hq' p hp).elim) fun p hp => (pc.not_drains hq' p hp).elim
    · rw [goto_other s hu]
      exact hframe (h.pcs u) (fun p hp => (h.fills_bounds hp).1) fun p hp => (h.drains_bounds hp).2
  · exact h.oneFiller u v p ((goto_claims hq hq' u p).1.1 hu) ((goto_claims hq hq' v p).1.1 hv)
  · exact h.oneDrainer u v p ((goto_claims hq hq' u p).2.1 hu) ((goto_claims hq hq' v p).2.1 hv)

/-- an answer, given when it is true -/
theorem Inv.note (h : Inv L s) {e : Event T} (ha : Allows L.cap s.spec e s.spec) : Inv L (s.note e) :=
  ⟨h.tail, h.head, h.le, h.room, h.free, h.ready,
    fun u => (h.pcs u).frame le_rfl le_rfl h.le (List.prefix_refl _) (fun _ _ => rfl) (fun _ _ => id) (fun _ => id)
      (fun _ hp => ⟨(h.fills_bounds hp).1, rfl⟩) fun _ hp => ⟨(h.drains_bounds hp).2, rfl⟩,
    h.oneFiller, h.oneDrainer, h.sound, h.accepted.snoc ha⟩

theorem Free.of {p : ℕ} (h : Free L s p) (hhead : s.head.moves ≤ s'.head.moves) (hother : ∀ u, u ≠ t → s'.pc u = s.pc u)
    (hself : ∀ q, (s'.pc t).drains q → q + L.cap ≠ p) : Free L s' p := by
  refine ⟨h.1.trans_le (Nat.add_le_add_right hhead _), fun u q hq => ?_⟩
  by_cases hu : u = t
  · subst hu
    exact hself q hq
  · rw [hother u hu] at hq
    exact h.2 u q hq

theorem Ready.of {p : ℕ} (h : Ready s p) (htail : s.tail.moves ≤ s'.tail.moves) (hother : ∀ u, u ≠ t → s'.pc u = s.pc u)
    (hself : ¬ (s'.pc t).fills p) : Ready s' p := by
  refine ⟨h.1.trans_le htail, fun u hp => ?_⟩
  by_cases hu : u = t
  · subst hu
    exact hself hp
  · rw [hother u hu] at hp
    exact h.2 u hp

/-- at most one thread has a claim `A`, when only `t` changes its own and takes none from the others -/
theorem one_claimer {A B : ℕ → Prop} (hold : ∀ u v, A u → A v → u = v) (hother : ∀ u, u ≠ t → B u → A u)
    (hapart : ∀ u, u ≠ t → A u → ¬ B t) (u v : ℕ) (hu : B u) (hv : B v) : u = v := by
  by_cases hut : u = t
  · by_cases hvt : v = t
    · rw [hut, hvt]
    · exact absurd (hut ▸ hu) (hapart v hvt (hother v hvt hv))
  · by_cases hvt : v = t
    · exact absurd (hvt ▸ hv) (hapart u hut (hother u hut hu))
    · exact hold u v (hother u hut hu) (hother v hvt hv)

/-- a step of thread `t` that changes its claims: the others keep theirs, with the slots they are about -/
theorem Inv.change (h : Inv L s) (hother : ∀ u, u ≠ t → s'.pc u = s.pc u) (hself : PcOk L s' (s'.pc t))
    (htail : s'.tail = ⟨L.word s'.sent.length, s'.sent.length⟩) (hhead : s'.head.word = L.word s'.head.moves)
    (hle : s'.head.moves ≤ s'.tail.moves) (hroom : s'.tail.moves ≤ s'.head.moves + L.cap)
    (hhead_le : s.head.moves ≤ s'.head.moves) (hsent : s.sent <+: s'.sent)
    (hfree : ∀ p, s.tail.moves ≤ p → Free L s p → Free L s' p) (hready : ∀ p, Ready s p → Ready s' p)
    (hfills : ∀ u, u ≠ t → ∀ p, (s.pc u).fills p →
      s'.head.moves ≤ p ∧ s'.slot (p % L.cap) = s.slot (p % L.cap) ∧ ¬ (s'.pc t).fills p)
    (hdrains : ∀ u, u ≠ t → ∀ p, (s.pc u).drains p →
      s'.tail.moves ≤ p + L.cap ∧ s'.slot (p % L.cap) = s.slot (p % L.cap) ∧ ¬ (s'.pc t).drains p)
    (hfreeSlot : ∀ p, s'.tail.moves ≤ p → Free L s' p → s'.slot (p % L.cap) = ⟨L.word p, none⟩)
    (hreadySlot : ∀ p, s'.head.moves ≤ p → Ready s' p → s'.slot (p % L.cap) = ⟨L.word p + 1, s'.sent[p]?⟩)
    (hsound : s'.fault = false) (hlog : Accepts L.cap s'.log s'.spec) : Inv L s' := by
  have hmoves : s.tail.moves = s.sent.length := congrArg Cursor.moves h.tail
  have hmoves' : s'.tail.moves = s'.sent.length := congrArg Cursor.moves htail
  have hitem : ∀ p < s.tail.moves, s'.sent[p]? = s.sent[p]? := by
    intro p hp
    obtain ⟨more, hmore⟩ := hsent
    rw [← hmore, List.getElem?_append_left (hmoves ▸ hp)]
  refine ⟨htail, hhead, hle, hroom, hfreeSlot, hreadySlot, fun u => ?_, fun u v p hu hv => ?_, fun u v p hu hv => ?_, hsound, hlog⟩
  · by_cases hu : u = t
    · subst hu
      exact hself
    · rw [hother u hu]
      refine (h.pcs u).frame hhead_le (by rw [hmoves, hmoves']; exact hsent.length_le) h.le hsent hitem hfree hready ?_ ?_
      · exact fun p hp => ⟨(hfills u hu p hp).1, (hfills u hu p hp).2.1⟩
      · exact fun p hp => ⟨(hdrains u hu p hp).1, (hdrains u hu p hp).2.1⟩
  · refine one_claimer (t := t) (A := fun u => (s.pc u).fills p) (B := fun u => (s'.pc u).fills p) (fun u v => h.oneFiller u v p) ?_ ?_ u v hu hv
    · exact fun u hu hp => hother u hu ▸ hp
    · exact fun u hu hp => (hfills u hu p hp).2.2
  · refine one_claimer (t := t) (A := fun u => (s.pc u).drains p) (B := fun u => (s'.pc u).drains p) (fun u v => h.oneDrainer u v p) ?_ ?_ u v hu hv
    · exact fun u hu hp => hother u hu ▸ hp
    · exact fun u hu hp => (hdrains u hu p hp).2.2

/-- the items of a claim under way were sent before -/
theorem Inv.held_append (h : Inv L s) (u : ℕ) (xs : List T) : (s.pc u).held (s.sent ++ xs) = (s.pc u).held s.sent := by
  have hmoves : s.tail.moves = s.sent.length := congrArg Cursor.moves h.tail
  have hok := h.pcs u
  cases hpc : s.pc u with
  | drain n pos item got =>
    rw [hpc] at hok
    have hle : pos.moves + n ≤ s.sent.length := hmoves ▸ hok.le.trans h.le
    simp only [Pc.held]
    rw [List.drop_append_of_le_length (by omega), List.take_append_of_le_length (by rw [List.length_drop]; omega)]
  | _ => rfl

/-- the tail moves over a run of free slots -/
theorem Inv.claimTail (h : Inv L s) (hq : (s.pc t).quiet = true) (xs : List T) (hsome : 0 < xs.length)
    (hrun : ∀ p, s.tail.moves ≤ p → p < s.tail.moves + xs.length → Free L s p) :
    Inv L { (s.goto t (.fill xs s.tail false)).note (.push t xs) with
      tail := ⟨L.word (s.tail.moves + xs.length), s.tail.moves + xs.length⟩
      sent := s.sent ++ xs } := by
  have hmoves : s.tail.moves = s.sent.length := congrArg Cursor.moves h.tail
  have hroom : s.tail.moves + xs.length ≤ s.head.moves + L.cap := by
    have hlast := (hrun (s.tail.moves + xs.length - 1) (by omega) (by omega)).1
    omega
  set s' : St T := { (s.goto t (.fill xs s.tail false)).note (.push t xs) with
    tail := ⟨L.word (s.tail.moves + xs.length), s.tail.moves + xs.length⟩
    sent := s.sent ++ xs } with hs'
  have hother : ∀ u, u ≠ t → s'.pc u = s.pc u := fun u hu => goto_other s hu _
  have hpc : s'.pc t = .fill xs s.tail false := goto_self s t _
  have hfills : ∀ p, (s'.pc t).fills p ↔ s.tail.moves ≤ p ∧ p < s.tail.moves + xs.length := fun p => by rw [hpc]; rfl
  have hdrains : ∀ p, ¬ (s'.pc t).drains p := fun p => by rw [hpc]; exact id
  have hitem : ∀ p, p < s.tail.moves → s'.sent[p]? = s.sent[p]? := fun p hp => List.getElem?_append_left (hmoves ▸ hp)
  refine h.change hother ?_ ?_ h.head (h.le.trans (Nat.le_add_right _ _)) hroom le_rfl (List.prefix_append _ _) ?_ ?_ ?_ ?_ ?_ ?_
    h.sound ?_
  · rw [hpc]
    refine ⟨by rw [h.tail], hsome, h.le, le_rfl, ?_, h.free _ le_rfl (hrun _ le_rfl (by omega)), fun p hp hlt => h.free p hp.le (hrun p hp.le hlt)⟩
    change xs <+: (s.sent ++ xs).drop s.tail.moves
    rw [hmoves, List.drop_left]
  · change (⟨_, _⟩ : Cursor) = ⟨L.word (s.sent ++ xs).length, (s.sent ++ xs).length⟩
    rw [List.length_append, ← hmoves]
  · exact fun p _ hp => hp.of le_rfl hother fun q hq => (hdrains q hq).elim
  · refine fun p hp => hp.of (Nat.le_add_right _ _) hother fun hf => ?_
    exact absurd ((hfills p).1 hf).1 (Nat.not_le_of_lt hp.1)
  · intro u _ p hp
    have hb := h.fills_bounds hp
    exact ⟨hb.1, rfl, fun hf => absurd ((hfills p).1 hf).1 (Nat.not_le_of_lt hb.2)⟩
  · intro u _ q hq
    have hb := h.drains_bounds hq
    refine ⟨?_, rfl, hdrains q⟩
    by_contra hlt
    exact (hrun (q + L.cap) hb.2 (Nat.lt_of_not_le hlt)).2 u q hq rfl
  · intro p hp hf
    refine h.free p ((Nat.le_add_right _ _).trans hp) (hf.of le_rfl (fun u hu => (hother u hu).symm) fun q hd => ?_)
    exact (Pc.not_drains hq q hd).elim
  · intro p hp hr
    have hlt : p < s.tail.moves := by
      by_contra hge
      exact hr.2 t ((hfills p).2 ⟨Nat.le_of_not_lt hge, hr.1⟩)
    rw [hitem p hlt]
    refine h.ready p hp ⟨hlt, fun u hu => ?_⟩
    by_cases hut : u = t
    · subst hut
      exact Pc.not_fills hq p hu
    · exact hr.2 u (by rw [hother u hut]; exact hu)
  · have hspec : s'.spec = { s.spec with queue := s.spec.queue ++ xs } := by
      refine congrArg₂ Spec.mk (List.drop_append_of_le_length (hmoves ▸ h.le)) (funext fun u => ?_)
      by_cases hut : u = t
      · subst hut
        rw [hpc]
        exact (Pc.held_quiet hq s.sent).symm
      · rw [hother u hut]
        exact h.held_append u xs
    rw [hspec]
    refine h.accepted.snoc (.push s.spec t xs ?_)
    have hlen : s.spec.queue.length = s.tail.moves - s.head.moves := by rw [St.spec, List.length_drop, ← hmoves]
    have hle := h.le
    rw [hlen]
    omega

/-- the head moves over a run of published items -/
theorem Inv.claimHead (h : Inv L s) (hq : (s.pc t).quiet = true) {n : ℕ} (hsome : 0 < n)
    (hrun : ∀ p, s.head.moves ≤ p → p < s.head.moves + n → Ready s p) :
    Inv L { (s.goto t (.drain n s.head none [])).note (.claim t ((s.sent.drop s.head.moves).take n)) with
      head := ⟨L.word (s.head.moves + n), s.head.moves + n⟩ } := by
  have hmoves : s.tail.moves = s.sent.length := congrArg Cursor.moves h.tail
  have hle : s.head.moves + n ≤ s.tail.moves := by
    have hlast := (hrun (s.head.moves + n - 1) (by omega) (by omega)).1
    omega
  have hroom := h.room
  set s' : St T := { (s.goto t (.drain n s.head none [])).note (.claim t ((s.sent.drop s.head.moves).take n)) with
    head := ⟨L.word (s.head.moves + n), s.head.moves + n⟩ } with hs'
  have hother : ∀ u, u ≠ t → s'.pc u = s.pc u := fun u hu => goto_other s hu _
  have hpc : s'.pc t = .drain n s.head none [] := goto_self s t _
  have hdrains : ∀ p, (s'.pc t).drains p ↔ s.head.moves ≤ p ∧ p < s.head.moves + n := fun p => by rw [hpc]; rfl
  have hfills : ∀ p, ¬ (s'.pc t).fills p := fun p => by rw [hpc]; exact id
  refine h.change hother ?_ h.tail rfl hle (hroom.trans (Nat.add_le_add_right (Nat.le_add_right _ _) _)) (Nat.le_add_right _ _)
    (List.prefix_refl _) ?_ ?_ ?_ ?_ ?_ ?_ h.sound ?_
  · rw [hpc]
    exact ⟨h.head, hsome, le_rfl, hroom, fun x hx => (by cases hx), h.ready _ le_rfl (hrun _ le_rfl (by omega)),
      fun p hp hlt => h.ready p hp.le (hrun p hp.le hlt)⟩
  · refine fun p _ hp => hp.of (Nat.le_add_right _ _) hother fun q hq => ?_
    have hge := ((hdrains q).1 hq).1
    have hlt := hp.1
    omega
  · exact fun p hp => hp.of le_rfl hother (hfills p)
  · intro u _ p hp
    refine ⟨?_, rfl, hfills p⟩
    by_contra hlt
    exact (hrun p (h.fills_bounds hp).1 (Nat.lt_of_not_le hlt)).2 u hp
  · intro u _ q hq
    have hb := h.drains_bounds hq
    exact ⟨hb.2, rfl, fun hd => absurd ((hdrains q).1 hd).1 (Nat.not_le_of_lt hb.1)⟩
  · intro p hp hf
    have hlt : p < s.head.moves + L.cap := by
      by_contra hge
      have hbound : p < s.head.moves + n + L.cap := hf.1
      refine hf.2 t (p - L.cap) ((hdrains _).2 ⟨by omega, by omega⟩) (by omega)
    refine h.free p hp ⟨hlt, fun u q hu => ?_⟩
    by_cases hut : u = t
    · subst hut
      exact (Pc.not_drains hq q hu).elim
    · exact hf.2 u q (by rw [hother u hut]; exact hu)
  · intro p hp hr
    refine h.ready p ((Nat.le_add_right _ _).trans hp) (hr.of le_rfl (fun u hu => (hother u hu).symm) ?_)
    exact Pc.not_fills hq p
  · have hspec : s'.spec = ⟨s.sent.drop (s.head.moves + n), Function.update s.spec.held t ((s.sent.drop s.head.moves).take n)⟩ := by
      refine congrArg (Spec.mk _) (funext fun u => ?_)
      by_cases hut : u = t
      · subst hut
        rw [hpc, Function.update_self]
        rfl
      · rw [hother u hut, Function.update_of_ne hut]
        rfl
    rw [hspec]
    refine h.accepted.snoc (.claim s.spec t _ _ ?_ (Pc.held_quiet hq s.sent))
    rw [← List.drop_drop, List.take_append_drop]
    rfl

theorem setSlot_of_ne (s : St T) {i j : ℕ} (h : j ≠ i) (c : Slot T) : (s.setSlot i c).slot j = s.slot j := by
  simp [St.setSlot, h]

/-- a sender works on the first slot of its claim, and gives it up only when it is published -/
theorem Inv.fillStep (h : Inv L s) {xs : List T} {pos : Cursor} {written : Bool} (hpc : s.pc t = .fill xs pos written)
    {c : Slot T} {pc : Pc T} (hsub : ∀ p, pc.fills p → (s.pc t).fills p)
    (hsup : ∀ p, (s.pc t).fills p → p ≠ pos.moves → pc.fills p) (hdrains : ∀ p, ¬ pc.drains p) (hheld : pc.held s.sent = [])
    (hok : PcOk L ((s.setSlot (pos.moves % L.cap) c).goto t pc) pc)
    (hpub : ¬ pc.fills pos.moves → c = ⟨L.word pos.moves + 1, s.sent[pos.moves]?⟩) :
    Inv L ((s.setSlot (pos.moves % L.cap) c).goto t pc) := by
  have hroom := h.room
  have hle := h.le
  have hfill := h.pcs t
  rw [hpc] at hfill
  have hlt : pos.moves < s.tail.moves := (Nat.lt_add_of_pos_right hfill.some).trans_le hfill.le
  have hmine : (s.pc t).fills pos.moves := by
    rw [hpc]
    exact ⟨le_rfl, Nat.lt_add_of_pos_right hfill.some⟩
  have hnone : ∀ q, ¬ (s.pc t).drains q := fun q => by rw [hpc]; exact id
  set s' := (s.setSlot (pos.moves % L.cap) c).goto t pc with hs'
  have hother : ∀ u, u ≠ t → s'.pc u = s.pc u := fun u hu => goto_other _ hu _
  have hself : s'.pc t = pc := goto_self _ t _
  -- every other position of the window keeps its slot
  have hslot : ∀ p, s.head.moves ≤ p → p < s.head.moves + L.cap → p ≠ pos.moves → s'.slot (p % L.cap) = s.slot (p % L.cap) :=
    fun p hp hp' hne => setSlot_of_ne s (slot_ne hp hp' hfill.ge (hlt.trans_le hroom) hne) c
  have hfree : ∀ p, Free L s' p ↔ Free L s p := by
    refine fun p => ⟨fun hp => hp.of le_rfl (fun u hu => (hother u hu).symm) fun q hq => (hnone q hq).elim, fun hp => ?_⟩
    exact hp.of le_rfl hother fun q hq => (hdrains q (hself ▸ hq)).elim
  refine h.change hother (by rw [hself]; exact hok) h.tail h.head h.le h.room le_rfl (List.prefix_refl _) (fun p _ => (hfree p).2)
    (fun p hp => hp.of le_rfl hother fun hf => hp.2 t (hsub p (hself ▸ hf))) ?_ ?_ ?_ ?_ h.sound ?_
  · intro u hu p hp
    have hb := h.fills_bounds hp
    have hne : p ≠ pos.moves := fun heq => hu (h.oneFiller u t p hp (heq ▸ hmine))
    exact ⟨hb.1, hslot p hb.1 (by omega) hne, fun hf => hu (h.oneFiller u t p hp (hsub p (hself ▸ hf)))⟩
  · intro u hu q hq
    have hb := h.drains_bounds hq
    have hkeep := hslot (q + L.cap) (by omega) (by omega) (by omega)
    rw [Nat.add_mod_right] at hkeep
    exact ⟨hb.2, hkeep, fun hd => hdrains q (hself ▸ hd)⟩
  · intro p hp hf
    have hp' : s.tail.moves ≤ p := hp
    have hf' := (hfree p).1 hf
    rw [hslot p (hle.trans hp') hf'.1 (by omega)]
    exact h.free p hp hf'
  · intro p hp hr
    by_cases hne : p = pos.moves
    · subst hne
      have hc : s'.slot (pos.moves % L.cap) = c := Function.update_self _ _ _
      rw [hc]
      exact hpub fun hf => hr.2 t (by rw [hself]; exact hf)
    · have hlt' : p < s.tail.moves := hr.1
      rw [hslot p hp (by omega) hne]
      refine h.ready p hp ⟨hr.1, fun u hu => ?_⟩
      by_cases hut : u = t
      · subst hut
        exact hr.2 u (by rw [hself]; exact hsup p hu hne)
      · exact hr.2 u (by rw [hother u hut]; exact hu)
  · have hspec : s'.spec = s.spec := by
      refine congrArg (Spec.mk _) (funext fun u => ?_)
      by_cases hut : u = t
      · subst hut
        rw [hself, hpc]
        exact hheld
      · rw [hother u hut]
        rfl
    rw [hspec]
    exact h.accepted

/-- a receiver works on the first slot of its claim, and gives it up only when it is free for the next lap -/
theorem Inv.drainStep (h : Inv L s) (log : List (Event T)) {n : ℕ} {pos : Cursor} {item : Option T} {got : List T}
    (hpc : s.pc t = .drain n pos item got) {c : Slot T} {pc : Pc T} (hsub : ∀ p, pc.drains p → (s.pc t).drains p)
    (hsup : ∀ p, (s.pc t).drains p → p ≠ pos.moves → pc.drains p) (hfills : ∀ p, ¬ pc.fills p)
    (hok : PcOk L ((s.setSlot (pos.moves % L.cap) c).goto t pc) pc)
    (hfreed : ¬ pc.drains pos.moves → c = ⟨L.word (pos.moves + L.cap), none⟩)
    (hlog : Accepts L.cap log ⟨s.sent.drop s.head.moves, Function.update s.spec.held t (pc.held s.sent)⟩) :
    Inv L { (s.setSlot (pos.moves % L.cap) c).goto t pc with log := log } := by
  have hroom := h.room
  have hle := h.le
  have hdrain := h.pcs t
  rw [hpc] at hdrain
  have hge := hdrain.ge
  have hlt : pos.moves < s.head.moves := (Nat.lt_add_of_pos_right hdrain.some).trans_le hdrain.le
  have hmine : (s.pc t).drains pos.moves := by
    rw [hpc]
    exact ⟨le_rfl, Nat.lt_add_of_pos_right hdrain.some⟩
  have hnone : ∀ p, ¬ (s.pc t).fills p := fun p => by rw [hpc]; exact id
  set s' : St T := { (s.setSlot (pos.moves % L.cap) c).goto t pc with log := log } with hs'
  have hother : ∀ u, u ≠ t → s'.pc u = s.pc u := fun u hu => goto_other _ hu _
  have hself : s'.pc t = pc := goto_self _ t _
  -- in the window of the tail the slot belongs to position `pos.moves + cap`
  have hslot : ∀ p, s.head.moves ≤ p → p < s.head.moves + L.cap → p ≠ pos.moves + L.cap →
      s'.slot (p % L.cap) = s.slot (p % L.cap) := by
    intro p hp hp' hne
    have hdiff := slot_ne hp hp' (hle.trans hge) (Nat.add_lt_add_right hlt _) hne
    rw [Nat.add_mod_right] at hdiff
    exact setSlot_of_ne s hdiff c
  have hready : ∀ p, Ready s' p ↔ Ready s p := by
    refine fun p => ⟨fun hp => hp.of le_rfl (fun u hu => (hother u hu).symm) (hnone p), fun hp => ?_⟩
    exact hp.of le_rfl hother fun hf => hfills p (hself ▸ hf)
  have hknows : PcOk L s' pc :=
    hok.frame le_rfl le_rfl h.le (List.prefix_refl _) (fun _ _ => rfl) (fun _ _ => id) (fun _ => id)
      (fun p hp => (hfills p hp).elim) fun p hp => ⟨(h.drains_bounds (hsub p hp)).2, rfl⟩
  refine h.change hother (by rw [hself]; exact hknows) h.tail h.head h.le h.room le_rfl (List.prefix_refl _) ?_
    (fun p => (hready p).2) ?_ ?_ ?_ ?_ h.sound ?_
  · exact fun p _ hp => hp.of le_rfl hother fun q hq => hp.2 t q (hsub q (hself ▸ hq))
  · intro u hu p hp
    have hb := h.fills_bounds hp
    exact ⟨hb.1, hslot p hb.1 (by omega) (by omega), fun hf => hfills p (hself ▸ hf)⟩
  · intro u hu q hq
    have hb := h.drains_bounds hq
    have hne : q ≠ pos.moves := fun heq => hu (h.oneDrainer u t q hq (heq ▸ hmine))
    have hkeep := hslot (q + L.cap) (by omega) (by omega) (by omega)
    rw [Nat.add_mod_right] at hkeep
    exact ⟨hb.2, hkeep, fun hd => hu (h.oneDrainer u t q hq (hsub q (hself ▸ hd)))⟩
  · intro p hp hf
    have hp' : s.tail.moves ≤ p := hp
    by_cases hne : p = pos.moves + L.cap
    · subst hne
      have hc : s'.slot (pos.moves % L.cap) = c := Function.update_self _ _ _
      rw [Nat.add_mod_right, hc]
      exact hfreed fun hd => hf.2 t pos.moves (by rw [hself]; exact hd) rfl
    · rw [hslot p (hle.trans hp') hf.1 hne]
      refine h.free p hp ⟨hf.1, fun u q hu heq => ?_⟩
      by_cases hut : u = t
      · subst hut
        exact hf.2 u q (by rw [hself]; exact hsup q hu (by omega)) heq
      · exact hf.2 u q (by rw [hother u hut]; exact hu) heq
  · intro p hp hr
    have hr' := (hready p).1 hr
    have hlt' := hr'.1
    rw [hslot p hp (by omega) (by omega)]
    exact h.ready p hp hr'
  · have hspec : s'.spec = ⟨s.sent.drop s.head.moves, Function.update s.spec.held t (pc.held s.sent)⟩ := by
      refine congrArg (Spec.mk _) (funext fun u => ?_)
      by_cases hut : u = t
      · subst hut
        rw [hself, Function.update_self]
        rfl
      · rw [hother u hut, Function.update_of_ne hut]
        rfl
    rw [hspec]
    exact hlog

theorem Filling.item {x : T} {xs : List T} {pos : Cursor} {written : Bool} (h : Filling L s (x :: xs) pos written) :
    s.sent[pos.moves]? = Option.some x ∧ xs <+: s.sent.drop (pos.moves + 1) := by
  obtain ⟨more, hmore⟩ := h.items
  have hdrop : s.sent.drop (pos.moves + 1) = xs ++ more := by rw [← List.drop_drop, ← hmore, List.cons_append, List.drop_one, List.tail_cons]
  refine ⟨?_, hdrop ▸ List.prefix_append _ _⟩
  calc s.sent[pos.moves]? = (s.sent.drop pos.moves)[0]? := by rw [List.getElem?_drop, Nat.add_zero]
    _ = Option.some x := by rw [← hmore]; rfl

/-- the slots after the first one of a claim -/
theorem Filling.rest_keep {xs : List T} {pos : Cursor} {written : Bool} (h : Inv L s) (hf : Filling L s xs pos written) (c : Slot T)
    {p : ℕ} (hp : pos.moves < p) (hlt : p < pos.moves + xs.length) :
    (s.setSlot (pos.moves % L.cap) c).slot (p % L.cap) = ⟨L.word p, none⟩ := by
  have hroom := h.room
  have hle := hf.le
  have hge := hf.ge
  rw [setSlot_of_ne s (slot_ne (show s.head.moves ≤ _ by omega) (by omega) (by omega) (by omega) (by omega)), hf.rest p hp hlt]

/-- the value goes into the claimed slot -/
theorem Inv.write (h : Inv L s) {x : T} {xs : List T} {pos : Cursor} (hpc : s.pc t = .fill (x :: xs) pos false) :
    Inv L ((s.setSlot (pos.moves % L.cap) ⟨L.word pos.moves, some x⟩).goto t (.fill (x :: xs) pos true)) := by
  have hfill := h.pcs t
  rw [hpc] at hfill
  refine h.fillStep hpc (fun p hp => by rw [hpc]; exact hp) (fun p hp _ => by rw [hpc] at hp; exact hp) (fun p => id) rfl ?_ ?_
  · refine ⟨hfill.word, hfill.some, hfill.ge, hfill.le, hfill.items, ?_, fun p hp hlt => hfill.rest_keep h _ hp hlt⟩
    change Function.update s.slot _ _ _ = (⟨_, s.sent[pos.moves]?⟩ : Slot T)
    rw [Function.update_self, hfill.item.1]
  · exact fun hno => absurd ⟨le_rfl, Nat.lt_add_of_pos_right hfill.some⟩ hno

/-- the stamp publishes the value -/
theorem Inv.publish (h : Inv L s) {x : T} {xs : List T} {pos : Cursor} (hpc : s.pc t = .fill (x :: xs) pos true) :
    Inv L ((s.setSlot (pos.moves % L.cap) ⟨L.word pos.moves + 1, s.sent[pos.moves]?⟩).goto t
      (if xs.isEmpty then .idle else .fill xs (pos.advance L) false)) := by
  have hfill := h.pcs t
  rw [hpc] at hfill
  have hlen : (x :: xs).length = xs.length + 1 := rfl
  have hle := hfill.le
  rw [hlen] at hle
  cases xs with
  | nil =>
    refine h.fillStep hpc (fun p hp => hp.elim) (fun p hp hne => ?_) (fun p => id) rfl trivial fun _ => rfl
    rw [hpc] at hp
    have hlt : p < pos.moves + 1 := hp.2
    have hge : pos.moves ≤ p := hp.1
    omega
  | cons y ys =>
    refine h.fillStep hpc (fun p hp => ?_) (fun p hp hne => ?_) (fun p => id) rfl ?_ fun _ => rfl
    · rw [hpc]
      have hge : pos.moves + 1 ≤ p := hp.1
      have hlt : p < pos.moves + 1 + (y :: ys).length := hp.2
      exact ⟨by omega, by rw [hlen]; omega⟩
    · rw [hpc] at hp
      have hge : pos.moves ≤ p := hp.1
      have hlt : p < pos.moves + (x :: y :: ys).length := hp.2
      rw [hlen] at hlt
      exact ⟨by change pos.moves + 1 ≤ p; omega, by change p < pos.moves + 1 + (y :: ys).length; omega⟩
    · have hge := hfill.ge
      refine ⟨?_, Nat.succ_pos _, ?_, ?_, hfill.item.2, ?_, fun p hp hlt => ?_⟩
      · rw [Cursor.advance, hfill.word, Laps.advance_word]
      · change s.head.moves ≤ pos.moves + 1
        omega
      · change pos.moves + 1 + (y :: ys).length ≤ s.tail.moves
        omega
      · exact hfill.rest_keep h _ (Nat.lt_succ_self _) (by change pos.moves + 1 < _; rw [hlen, List.length_cons]; omega)
      · have hp' : pos.moves + 1 < p := hp
        have hlt' : p < pos.moves + 1 + (y :: ys).length := hlt
        exact hfill.rest_keep h _ (by omega) (by rw [hlen]; omega)

theorem Draining.rest_keep {n : ℕ} {pos : Cursor} {item : Option T} (h : Inv L s) (hd : Draining L s n pos item) (c : Slot T) {p : ℕ}
    (hp : pos.moves < p) (hlt : p < pos.moves + n) :
    (s.setSlot (pos.moves % L.cap) c).slot (p % L.cap) = ⟨L.word p + 1, s.sent[p]?⟩ := by
  have hle := h.le
  have hge := hd.ge
  have hbefore := hd.le
  rw [setSlot_of_ne s (slot_ne (show pos.moves ≤ _ by omega) (by omega) (by omega) (by omega) (by omega)), hd.rest p hp hlt]

theorem held_next {pos : Cursor} {n : ℕ} {x : T} (got : List T) (hx : s.sent[pos.moves]? = some x) :
    got ++ (s.sent.drop pos.moves).take (n + 1) = got ++ [x] ++ (s.sent.drop (pos.moves + 1)).take n := by
  obtain ⟨hlt, rfl⟩ := List.getElem?_eq_some_iff.1 hx
  rw [List.drop_eq_getElem_cons hlt, List.take_succ_cons, List.append_assoc]
  rfl

/-- the value leaves the claimed slot -/
theorem Inv.read (h : Inv L s) {n : ℕ} {pos : Cursor} {got : List T} {x : T} (hpc : s.pc t = .drain (n + 1) pos none got)
    (hx : s.sent[pos.moves]? = some x) :
    Inv L ((s.setSlot (pos.moves % L.cap) ⟨L.word pos.moves + 1, none⟩).goto t (.drain (n + 1) pos (some x) got)) := by
  have hdrain := h.pcs t
  rw [hpc] at hdrain
  refine h.drainStep s.log hpc (fun p hp => by rw [hpc]; exact hp) (fun p hp _ => by rw [hpc] at hp; exact hp) (fun p => id)
    ?_ ?_ ?_
  · refine ⟨hdrain.word, hdrain.some, hdrain.le, hdrain.ge, ?_, Function.update_self _ _ _, fun p hp hlt => hdrain.rest_keep h _ hp hlt⟩
    rintro y ⟨⟩
    exact hx
  · exact fun hno => absurd ⟨le_rfl, Nat.lt_add_of_pos_right hdrain.some⟩ hno
  · have hsame : Function.update s.spec.held t ((Pc.drain (n + 1) pos (some x) got).held s.sent) = s.spec.held := by
      refine Function.update_eq_self_iff.2 ?_
      change _ = (s.pc t).held s.sent
      rw [hpc]
      rfl
    rw [hsame]
    exact h.accepted

/-- the stamp frees the last slot of a claim, and the receiver has all its items -/
theorem Inv.freeLast (h : Inv L s) {pos : Cursor} {got : List T} {x : T} (hpc : s.pc t = .drain 1 pos (some x) got) :
    Inv L (((s.setSlot (pos.moves % L.cap) ⟨L.word (pos.moves + L.cap), none⟩).goto t .idle).note (.got t (got ++ [x]))) := by
  have hdrain := h.pcs t
  rw [hpc] at hdrain
  refine h.drainStep _ hpc (fun p hp => hp.elim) (fun p hp hne => ?_) (fun p => id) trivial (fun _ => rfl) ?_
  · rw [hpc] at hp
    have hlt : p < pos.moves + 1 := hp.2
    have hge : pos.moves ≤ p := hp.1
    omega
  · refine h.accepted.snoc (.got s.spec t _ ?_)
    change (s.pc t).held s.sent = _
    rw [hpc]
    change got ++ (s.sent.drop pos.moves).take (0 + 1) = _
    rw [held_next got (hdrain.read x rfl), List.take_zero, List.append_nil]

/-- the stamp frees the slot, and the next one is read -/
theorem Inv.freeNext (h : Inv L s) {n : ℕ} {pos : Cursor} {got : List T} {x : T} (hpc : s.pc t = .drain (n + 2) pos (some x) got) :
    Inv L ((s.setSlot (pos.moves % L.cap) ⟨L.word (pos.moves + L.cap), none⟩).goto t
      (.drain (n + 1) (pos.advance L) none (got ++ [x]))) := by
  have hdrain := h.pcs t
  rw [hpc] at hdrain
  have hle := hdrain.le
  have hge := hdrain.ge
  refine h.drainStep s.log hpc (fun p hp => ?_) (fun p hp hne => ?_) (fun p => id) ?_ (fun _ => rfl) ?_
  · rw [hpc]
    have hge : pos.moves + 1 ≤ p := hp.1
    have hlt : p < pos.moves + 1 + (n + 1) := hp.2
    exact ⟨by omega, by omega⟩
  · rw [hpc] at hp
    have hge : pos.moves ≤ p := hp.1
    have hlt : p < pos.moves + (n + 2) := hp.2
    exact ⟨by change pos.moves + 1 ≤ p; omega, by change p < pos.moves + 1 + (n + 1); omega⟩
  · refine ⟨?_, Nat.succ_pos _, ?_, ?_, (fun y hy => by cases hy), ?_, fun p hp hlt => ?_⟩
    · rw [Cursor.advance, hdrain.word, Laps.advance_word]
    · change pos.moves + 1 + (n + 1) ≤ s.head.moves
      omega
    · change s.tail.moves ≤ pos.moves + 1 + L.cap
      omega
    · exact hdrain.rest_keep h _ (Nat.lt_succ_self _) (by change pos.moves + 1 < _; omega)
    · have hp' : pos.moves + 1 < p := hp
      have hlt' : p < pos.moves + 1 + (n + 1) := hlt
      exact hdrain.rest_keep h _ (by omega) (by omega)
  · have hsame : Function.update s.spec.held t ((Pc.drain (n + 1) (pos.advance L) none (got ++ [x])).held s.sent) = s.spec.held := by
      refine Function.update_eq_self_iff.2 ?_
      change _ = (s.pc t).held s.sent
      rw [hpc]
      exact (held_next got (hdrain.read x rfl)).symm
    rw [hsame]
    exact h.accepted

/-! ## Walks -/

/-- a stamp that equals the word of its position: the slot was freed for this lap -/
theorem Inv.free_next (h : Inv L s) {n : ℕ} (hall : ∀ p, s.tail.moves ≤ p → p < s.tail.moves + n → Free L s p)
    (hstamp : (s.slot ((s.tail.moves + n) % L.cap)).stamp = L.word (s.tail.moves + n)) : Free L s (s.tail.moves + n) := by
  have hroom := h.room
  have hcap := L.cap_pos
  have hle : s.tail.moves + n ≤ s.head.moves + L.cap := by
    rcases Nat.eq_zero_or_pos n with rfl | hpos
    · exact hroom
    · have hlast := (hall (s.tail.moves + n - 1) (by omega) (by omega)).1
      omega
  have hlong := L.cap_lt_period
  -- the words one lap apart differ
  have hlap : L.word s.head.moves ≠ L.word (s.head.moves + L.cap) := fun heq => by
    have := Laps.word_inj heq (Nat.le_add_right _ _) (by omega)
    omega
  rcases Nat.lt_or_eq_of_le hle with hlt | heq
  · refine ⟨hlt, fun u q hu hq => ?_⟩
    have hb := h.drains_bounds hu
    have hslot : (s.slot (q % L.cap)).stamp = L.word q + 1 := h.drains_stamp hu
    rw [← hq, Nat.add_mod_right, hslot] at hstamp
    exact Laps.word_succ_ne (Nat.add_mod_right q L.cap).symm hstamp
  · exfalso
    rw [heq, Nat.add_mod_right] at hstamp
    rcases Nat.lt_or_eq_of_le h.le with hlt | hsame
    · by_cases hfill : ∃ u, (s.pc u).fills s.head.moves
      · obtain ⟨u, hu⟩ := hfill
        rw [h.fills_stamp hu] at hstamp
        exact hlap hstamp
      · rw [h.ready _ le_rfl ⟨hlt, fun u hu => hfill ⟨u, hu⟩⟩] at hstamp
        exact Laps.word_succ_ne (Nat.add_mod_right s.head.moves L.cap).symm hstamp
    · rw [h.free s.head.moves hsame.ge (hall _ hsame.ge (by omega))] at hstamp
      exact hlap hstamp

/-- a stamp one above the word of its position: the item is published -/
theorem Inv.ready_next (h : Inv L s) {n : ℕ} (hall : ∀ p, s.head.moves ≤ p → p < s.head.moves + n → Ready s p)
    (hstamp : (s.slot ((s.head.moves + n) % L.cap)).stamp = L.word (s.head.moves + n) + 1) : Ready s (s.head.moves + n) := by
  have hroom := h.room
  have hcap := L.cap_pos
  have hle : s.head.moves + n ≤ s.tail.moves := by
    rcases Nat.eq_zero_or_pos n with rfl | hpos
    · exact h.le
    · have hlast := (hall (s.head.moves + n - 1) (by omega) (by omega)).1
      omega
  have hlong := L.cap_lt_period
  rcases Nat.lt_or_eq_of_le hle with hlt | heq
  · refine ⟨hlt, fun u hu => ?_⟩
    rw [h.fills_stamp hu] at hstamp
    omega
  · exfalso
    rw [heq] at hstamp
    rcases Nat.lt_or_eq_of_le hroom with hlt | hsame
    · by_cases hdrain : ∃ u q, (s.pc u).drains q ∧ q + L.cap = s.tail.moves
      · obtain ⟨u, q, hu, hq⟩ := hdrain
        rw [← hq, Nat.add_mod_right, h.drains_stamp hu] at hstamp
        have := Laps.word_inj (Nat.add_right_cancel hstamp) (Nat.le_add_right _ _) (by omega)
        omega
      · rw [h.free _ le_rfl ⟨hlt, fun u q hu hq => hdrain ⟨u, q, hu, hq⟩⟩] at hstamp
        exact Nat.succ_ne_self _ hstamp.symm
    · rw [hsame, Nat.add_mod_right, h.ready _ le_rfl (hall _ le_rfl (by omega))] at hstamp
      have := Laps.word_inj (Nat.add_right_cancel hstamp) (Nat.le_add_right _ _) (by omega)
      omega

theorem Inv.seen_tail (h : Inv L s) : Seen L s.tail s.tail := ⟨by rw [h.tail], le_rfl⟩

theorem Inv.seen_head (h : Inv L s) : Seen L s.head s.head := ⟨h.head, le_rfl⟩

theorem Seen.walk {c now : Cursor} (h : Seen L c now) (good : ℕ → Prop) : Walked L c now c 0 good :=
  ⟨h, by rw [Nat.add_zero, ← h.word], fun _ p hp hlt => absurd hp (Nat.not_le_of_lt hlt)⟩

theorem Walked.next {c now pos : Cursor} {n : ℕ} {good : ℕ → Prop} (h : Walked L c now pos n good)
    (hnext : c.moves = now.moves → good (c.moves + n)) : Walked L c now (pos.advance L) (n + 1) good := by
  refine ⟨h.seen, ?_, fun heq p hp hlt => ?_⟩
  · rw [h.pos, Cursor.advance, Laps.advance_word]
    rfl
  · rcases Nat.lt_succ_iff_lt_or_eq.1 hlt with hlt | rfl
    · exact h.good heq p hp hlt
    · exact hnext heq

theorem sendNext_ok {k : Send T} {tail pos : Cursor} {n : ℕ} (h : Walked L tail s.tail pos n (Free L s)) (hle : n ≤ k.items.length) :
    PcOk L s (sendNext k tail pos n) ∧ (sendNext k tail pos n).quiet = true := by
  unfold sendNext
  split_ifs with hlt hzero
  · exact ⟨⟨h, hlt⟩, rfl⟩
  · exact ⟨trivial, rfl⟩
  · exact ⟨⟨h, Nat.pos_of_ne_zero hzero, hle⟩, rfl⟩

theorem sendMiss_ok {k : Send T} {tail : Cursor} (stamp : ℕ) (h : Seen L tail s.tail) :
    PcOk L s (sendMiss L k tail stamp) ∧ (sendMiss L k tail stamp).quiet = true := by
  unfold sendMiss
  split
  · split_ifs
    · exact ⟨h, rfl⟩
    · exact ⟨trivial, rfl⟩
  · exact ⟨trivial, rfl⟩
  · exact ⟨trivial, rfl⟩

theorem sendRetry_ok (h : Inv L s) (k : Send T) : PcOk L s (sendRetry k s.tail) ∧ (sendRetry k s.tail).quiet = true := by
  unfold sendRetry
  split
  · exact ⟨⟨h.seen_tail.walk _, Nat.one_pos⟩, rfl⟩
  · exact ⟨trivial, rfl⟩
  · split_ifs
    · exact sendNext_ok (h.seen_tail.walk _) (Nat.zero_le _)
    · exact ⟨trivial, rfl⟩

/-- the queue is full when the head is one lap behind a tail loaded before it -/
theorem Inv.full (h : Inv L s) {tail : Cursor} (hseen : Seen L tail s.tail) (htime : s.tail.moves + L.cap < tail.moves + L.period)
    (heq : (s.head.word + L.lap) % L.size = tail.word) : s.spec.queue.length = L.cap := by
  have hmoves : s.tail.moves = s.sent.length := congrArg Cursor.moves h.tail
  have hroom := h.room
  have hle := h.le
  have hold := hseen.le
  rw [h.head, Laps.word_add_lap, hseen.word] at heq
  have hsame := Laps.word_inj heq.symm (by omega) (by omega)
  rw [St.spec, List.length_drop, ← hmoves]
  omega

/-- the queue is empty when the tail is a head loaded before it -/
theorem Inv.empty (h : Inv L s) {head : Cursor} (hseen : Seen L head s.head) (htime : s.head.moves + L.cap < head.moves + L.period)
    (heq : s.tail.word = head.word) : s.spec.queue = [] := by
  have hmoves : s.tail.moves = s.sent.length := congrArg Cursor.moves h.tail
  have hroom := h.room
  have hle := h.le
  have hold := hseen.le
  have hword : s.tail.word = L.word s.tail.moves := by rw [h.tail]
  rw [hword, hseen.word] at heq
  have hsame := Laps.word_inj heq.symm (by omega) (by omega)
  rw [St.spec, List.drop_eq_nil_iff, ← hmoves]
  omega

theorem sendStep_inv {spurious : Bool} (h : Inv L s) (ht : Timely L s) (hs : sendStep L s t spurious (s.pc t) = some s') :
    Inv L s' := by
  have hok := h.pcs t
  have htime := ht t
  cases hpc : s.pc t with
  | sendLoad k =>
    have hq : (s.pc t).quiet = true := by rw [hpc]; rfl
    have hnext := sendNext_ok (k := k) (h.seen_tail.walk (Free L s)) (Nat.zero_le _)
    rw [hpc] at hs
    cases k with
    | oneshot x =>
      cases hs
      exact h.quiet hq rfl h.seen_tail
    | push x =>
      cases hs
      exact h.quiet hq hnext.2 hnext.1
    | batch xs tries =>
      cases hs
      exact h.quiet hq hnext.2 hnext.1
  | sendFull k tail =>
    have hq : (s.pc t).quiet = true := by rw [hpc]; rfl
    rw [hpc] at hs hok htime
    simp only [sendStep] at hs
    split_ifs at hs with hfull
    · cases hs
      have hidle : Inv L (s.goto t .idle) := h.quiet hq rfl trivial
      exact hidle.note (.full _ t (h.full hok htime hfull))
    · cases k with
      | oneshot x =>
        cases hs
        exact h.quiet hq rfl ⟨hok.walk _, Nat.one_pos⟩
      | push x =>
        cases hs
        exact h.quiet hq rfl trivial
      | batch xs tries =>
        cases hs
        exact h.quiet hq rfl trivial
  | sendWalk k tail pos n =>
    have hq : (s.pc t).quiet = true := by rw [hpc]; rfl
    rw [hpc] at hs hok
    obtain ⟨hwalk, hlt⟩ := hok
    simp only [sendStep] at hs
    split_ifs at hs with hstamp hzero
    · cases hs
      have hnext := sendNext_ok (k := k) (hwalk.next fun heq => ?_) hlt
      · exact h.quiet hq hnext.2 hnext.1
      · rw [hwalk.pos, Laps.index_word, heq] at hstamp
        rw [heq]
        exact h.free_next (fun p hp hlt => hwalk.good heq p (heq ▸ hp) (heq ▸ hlt)) hstamp
    · cases hs
      have hmiss := sendMiss_ok (k := k) (s.slot (L.index pos.word)).stamp hwalk.seen
      exact h.quiet hq hmiss.2 hmiss.1
    · cases hs
      exact h.quiet hq rfl ⟨hwalk, Nat.pos_of_ne_zero hzero, hlt.le⟩
  | sendCas k tail pos n =>
    have hq : (s.pc t).quiet = true := by rw [hpc]; rfl
    rw [hpc] at hs hok htime
    obtain ⟨hwalk, hpos, hle⟩ := hok
    simp only [sendStep] at hs
    split_ifs at hs with hcas
    · cases hs
      have hword : s.tail.word = L.word s.tail.moves := by rw [h.tail]
      have htime' : s.tail.moves + L.cap < tail.moves + L.period := htime
      have hsame : tail.moves = s.tail.moves :=
        Laps.word_inj (by rw [← hwalk.seen.word, ← hcas.1, hword]) hwalk.seen.le (by omega)
      have hlen : (k.items.take n).length = n := List.length_take_of_le hle
      have hclaim := h.claimTail hq (k.items.take n) (by omega) fun p hp hlt =>
        hwalk.good hsame p (hsame ▸ hp) (by rw [hsame]; omega)
      rw [hlen] at hclaim
      have hcur : (⟨tail.word, s.tail.moves⟩ : Cursor) = s.tail := by rw [← hcas.1]
      rw [hcur, hwalk.pos, hsame]
      exact hclaim
    · cases hs
      have hretry := sendRetry_ok h k
      exact h.quiet hq hretry.2 hretry.1
  | fill xs pos written =>
    rw [hpc] at hs hok
    cases xs with
    | nil => cases hs
    | cons x xs =>
      cases written with
      | false =>
        cases hs
        rw [hok.word, Laps.index_word, hok.first]
        rw [if_neg Bool.false_ne_true, Option.isSome_none, Bool.or_false]
        exact h.write hpc
      | true =>
        cases hs
        rw [hok.word, Laps.index_word, hok.first]
        exact h.publish hpc
  | _ =>
    rw [hpc] at hs
    cases hs

theorem recvNext_ok {k : Recv} {head pos : Cursor} {n : ℕ} (h : Walked L head s.head pos n (Ready s)) :
    PcOk L s (recvNext k head pos n) ∧ (recvNext k head pos n : Pc T).quiet = true := by
  unfold recvNext
  split_ifs with hlt hzero
  · exact ⟨⟨h, hlt⟩, rfl⟩
  · exact ⟨trivial, rfl⟩
  · exact ⟨⟨h, Nat.pos_of_ne_zero hzero⟩, rfl⟩

theorem recvMiss_ok {k : Recv} {head : Cursor} (stamp : ℕ) (h : Seen L head s.head) :
    PcOk L s (recvMiss k head stamp) ∧ (recvMiss k head stamp : Pc T).quiet = true := by
  unfold recvMiss
  split
  · split_ifs
    · exact ⟨h, rfl⟩
    · exact ⟨trivial, rfl⟩
  · exact ⟨trivial, rfl⟩

theorem recvRetry_ok (h : Inv L s) (k : Recv) : PcOk L s (recvRetry k s.head) ∧ (recvRetry k s.head : Pc T).quiet = true := by
  unfold recvRetry
  split
  · exact ⟨⟨h.seen_head.walk _, Nat.one_pos⟩, rfl⟩
  · split_ifs
    · exact recvNext_ok (h.seen_head.walk _)
    · exact ⟨trivial, rfl⟩

theorem recvStep_inv {spurious : Bool} (h : Inv L s) (ht : Timely L s) (hs : recvStep L s t spurious (s.pc t) = some s') :
    Inv L s' := by
  have hok := h.pcs t
  have htime := ht t
  cases hpc : s.pc t with
  | recvLoad k =>
    have hnext := recvNext_ok (k := k) (h.seen_head.walk (Ready s))
    rw [hpc] at hs
    cases hs
    exact h.quiet (by rw [hpc]; rfl) hnext.2 hnext.1
  | recvEmpty k head =>
    have hq : (s.pc t).quiet = true := by rw [hpc]; rfl
    rw [hpc] at hs hok htime
    simp only [recvStep] at hs
    split_ifs at hs with hempty
    · cases hs
      have hidle : Inv L (s.goto t .idle) := h.quiet hq rfl trivial
      exact hidle.note (.empty _ t (h.empty hok htime hempty))
    · cases hs
      exact h.quiet hq rfl trivial
  | recvWalk k head pos n =>
    have hq : (s.pc t).quiet = true := by rw [hpc]; rfl
    rw [hpc] at hs hok
    obtain ⟨hwalk, -⟩ := hok
    simp only [recvStep] at hs
    split_ifs at hs with hstamp hzero
    · cases hs
      have hnext := recvNext_ok (k := k) (hwalk.next fun heq => ?_)
      · exact h.quiet hq hnext.2 hnext.1
      · rw [hwalk.pos, Laps.index_word, heq] at hstamp
        rw [heq]
        exact h.ready_next (fun p hp hlt => hwalk.good heq p (heq ▸ hp) (heq ▸ hlt)) hstamp
    · cases hs
      have hmiss := recvMiss_ok (k := k) (s.slot (L.index pos.word)).stamp hwalk.seen
      exact h.quiet hq hmiss.2 hmiss.1
    · cases hs
      exact h.quiet hq rfl ⟨hwalk, Nat.pos_of_ne_zero hzero⟩
  | recvCas k head pos n =>
    have hq : (s.pc t).quiet = true := by rw [hpc]; rfl
    rw [hpc] at hs hok htime
    obtain ⟨hwalk, hpos⟩ := hok
    simp only [recvStep] at hs
    split_ifs at hs with hcas
    · cases hs
      have htime' : s.head.moves + L.cap < head.moves + L.period := htime
      have hsame : head.moves = s.head.moves :=
        Laps.word_inj (by rw [← hwalk.seen.word, ← hcas.1, h.head]) hwalk.seen.le (by omega)
      have hclaim := h.claimHead hq hpos fun p hp hlt => hwalk.good hsame p (hsame ▸ hp) (hsame ▸ hlt)
      have hcur : (⟨head.word, s.head.moves⟩ : Cursor) = s.head := by rw [← hcas.1]
      rw [hcur, hwalk.pos, hsame]
      exact hclaim
    · cases hs
      have hretry := recvRetry_ok h k
      exact h.quiet hq hretry.2 hretry.1
  | drain n pos item got =>
    rw [hpc] at hs hok
    have hslot := hok.first
    cases n with
    | zero => cases hs
    | succ n =>
      cases item with
      | none =>
        have hmoves : s.tail.moves = s.sent.length := congrArg Cursor.moves h.tail
        have hle := h.le
        have hbefore := hok.le
        obtain ⟨x, hx⟩ : ∃ x, s.sent[pos.moves]? = some x := ⟨_, List.getElem?_eq_getElem (by omega)⟩
        have hfirst : s.slot (L.index pos.word) = ⟨L.word pos.moves + 1, some x⟩ := by
          rw [hok.word, Laps.index_word, hslot, ← hx]
          rfl
        simp only [recvStep, hfirst] at hs
        cases hs
        rw [hok.word, Laps.index_word]
        exact h.read hpc hx
      | some x =>
        have hfirst : s.slot (L.index pos.word) = ⟨L.word pos.moves + 1, none⟩ := by
          rw [hok.word, Laps.index_word, hslot]
          rfl
        simp only [recvStep, hfirst] at hs
        rw [hok.word, Laps.index_word, Laps.word_add_lap] at hs
        cases n with
        | zero =>
          cases hs
          exact h.freeLast hpc
        | succ n =>
          cases hs
          exact h.freeNext hpc
  | _ =>
    rw [hpc] at hs
    cases hs

theorem step_inv {a : Act T} (ht : Timely L s) (h : Inv L s) (hs : step L s a = some s') : Inv L s' := by
  have hidle : ∀ {u : ℕ}, (s.pc u).isIdle = true → (s.pc u).quiet = true := by
    intro u hu
    cases hpc : s.pc u <;> rw [hpc] at hu <;> first | rfl | cases hu
  cases a with
  | send t k =>
    simp only [step] at hs
    split_ifs at hs with hi
    cases hs
    exact h.quiet (hidle hi) rfl trivial
  | recv t k =>
    simp only [step] at hs
    split_ifs at hs with hi
    cases hs
    exact h.quiet (hidle hi) rfl trivial
  | run t spurious =>
    rcases Option.or_eq_some_iff.1 hs with hs | ⟨-, hs⟩
    · exact sendStep_inv h ht hs
    · exact recvStep_inv h ht hs

theorem run_inv {acts : List (Act T)} (h : Inv L s) (ht : Machine.Along (step L) (Timely L) s acts) (hr : run L s acts = some s') :
    Inv L s' :=
  Machine.run_keeps_along (fun ht h hs => step_inv ht h hs) h ht hr

end Invariant

/-! ## Short runs -/

def Pc.walked : Pc T → ℕ
  | .sendWalk _ _ _ n => n
  | .sendCas _ _ _ n => n
  | .recvWalk _ _ _ n => n
  | .recvCas _ _ _ n => n
  | _ => 0

/-- `i` steps after the start -/
structure Few (i : ℕ) (s : St T) : Prop where
  head : s.head.moves ≤ i * i
  tail : s.tail.moves ≤ i * i
  walked : ∀ t, (s.pc t).walked ≤ i

section Short

variable {L : Laps} {s s' : St T} {i t : ℕ}

theorem Few.goto (h : Few i s) {pc : Pc T} (hpc : pc.walked ≤ i + 1) : Few (i + 1) (s.goto t pc) := by
  have hsq : i * i ≤ (i + 1) * (i + 1) := Nat.mul_le_mul (Nat.le_succ i) (Nat.le_succ i)
  refine ⟨h.head.trans hsq, h.tail.trans hsq, fun u => ?_⟩
  by_cases hu : u = t
  · subst hu
    rw [goto_self]
    exact hpc
  · rw [goto_other s hu]
    exact (h.walked u).trans (Nat.le_succ i)

/-- the step leaves the cursors alone -/
theorem Few.still (h : Few i s) (pc : Pc T) (hpc : pc.walked = 0) (hhead : s'.head = s.head) (htail : s'.tail = s.tail)
    (hpcs : s'.pc = (s.goto t pc).pc) : Few (i + 1) s' := by
  have hgoto : Few (i + 1) (s.goto t pc) := h.goto (by rw [hpc]; exact Nat.zero_le _)
  refine ⟨?_, ?_, ?_⟩
  · rw [hhead]
    exact hgoto.head
  · rw [htail]
    exact hgoto.tail
  · rw [hpcs]
    exact hgoto.walked

theorem sendNext_walked (k : Send T) (tail pos : Cursor) (n : ℕ) : (sendNext k tail pos n).walked ≤ n := by
  unfold sendNext
  split_ifs
  · exact le_rfl
  · exact Nat.zero_le n
  · exact le_rfl

theorem sendMiss_walked (k : Send T) (tail : Cursor) (stamp : ℕ) : (sendMiss L k tail stamp).walked = 0 := by
  unfold sendMiss
  split
  · split_ifs <;> rfl
  · rfl
  · rfl

theorem sendRetry_walked (k : Send T) (tail : Cursor) : (sendRetry k tail).walked = 0 := by
  unfold sendRetry
  split
  · rfl
  · rfl
  · split_ifs
    · exact Nat.le_zero.1 (sendNext_walked _ _ _ 0)
    · rfl

theorem recvNext_walked (k : Recv) (head pos : Cursor) (n : ℕ) : (recvNext k head pos n : Pc T).walked ≤ n := by
  unfold recvNext
  split_ifs
  · exact le_rfl
  · exact Nat.zero_le n
  · exact le_rfl

theorem recvMiss_walked (k : Recv) (head : Cursor) (stamp : ℕ) : (recvMiss k head stamp : Pc T).walked = 0 := by
  unfold recvMiss
  split
  · split_ifs <;> rfl
  · rfl

theorem recvRetry_walked (k : Recv) (head : Cursor) : (recvRetry k head : Pc T).walked = 0 := by
  unfold recvRetry
  split
  · rfl
  · split_ifs
    · exact Nat.le_zero.1 (recvNext_walked _ _ _ 0)
    · rfl

theorem sendStep_few {spurious : Bool} (h : Few i s) (hs : sendStep L s t spurious (s.pc t) = some s') : Few (i + 1) s' := by
  have hwalked := h.walked t
  cases hpc : s.pc t with
  | sendLoad k =>
    rw [hpc] at hs
    cases k with
    | oneshot x =>
      cases hs
      exact h.goto (Nat.zero_le _)
    | push x =>
      cases hs
      exact h.goto ((sendNext_walked _ _ _ 0).trans (Nat.zero_le _))
    | batch xs tries =>
      cases hs
      exact h.goto ((sendNext_walked _ _ _ 0).trans (Nat.zero_le _))
  | sendFull k tail =>
    rw [hpc] at hs
    simp only [sendStep] at hs
    split_ifs at hs
    · cases hs
      exact h.still .idle rfl rfl rfl rfl
    · cases k <;> (cases hs; exact h.goto (Nat.zero_le _))
  | sendWalk k tail pos n =>
    rw [hpc] at hs hwalked
    simp only [sendStep] at hs
    split_ifs at hs
    · cases hs
      exact h.goto ((sendNext_walked _ _ _ _).trans (Nat.succ_le_succ hwalked))
    · cases hs
      exact h.goto (by rw [sendMiss_walked]; exact Nat.zero_le _)
    · cases hs
      exact h.goto (Nat.le_succ_of_le hwalked)
  | sendCas k tail pos n =>
    rw [hpc] at hs hwalked
    simp only [sendStep] at hs
    split_ifs at hs
    · cases hs
      have hfill : Few (i + 1) (s.goto t (.fill (k.items.take n) ⟨tail.word, s.tail.moves⟩ false)) := h.goto (Nat.zero_le _)
      refine ⟨hfill.head, ?_, hfill.walked⟩
      calc s.tail.moves + n ≤ i * i + i := Nat.add_le_add h.tail hwalked
        _ ≤ (i + 1) * (i + 1) := by nlinarith
    · cases hs
      exact h.goto (by rw [sendRetry_walked]; exact Nat.zero_le _)
  | fill xs pos written =>
    rw [hpc] at hs
    cases xs with
    | nil => cases hs
    | cons x xs =>
      cases written with
      | false =>
        cases hs
        exact h.still (.fill (x :: xs) pos true) rfl rfl rfl rfl
      | true =>
        cases hs
        exact h.still (if xs.isEmpty then .idle else .fill xs (pos.advance L) false) (by split_ifs <;> rfl) rfl rfl rfl
  | _ =>
    rw [hpc] at hs
    cases hs

theorem recvStep_few {spurious : Bool} (h : Few i s) (hs : recvStep L s t spurious (s.pc t) = some s') : Few (i + 1) s' := by
  have hwalked := h.walked t
  cases hpc : s.pc t with
  | recvLoad k =>
    rw [hpc] at hs
    cases hs
    exact h.goto ((recvNext_walked _ _ _ 0).trans (Nat.zero_le _))
  | recvEmpty k head =>
    rw [hpc] at hs
    simp only [recvStep] at hs
    split_ifs at hs
    · cases hs
      exact h.still .idle rfl rfl rfl rfl
    · cases hs
      exact h.goto (Nat.zero_le _)
  | recvWalk k head pos n =>
    rw [hpc] at hs hwalked
    simp only [recvStep] at hs
    split_ifs at hs
    · cases hs
      exact h.goto ((recvNext_walked _ _ _ _).trans (Nat.succ_le_succ hwalked))
    · cases hs
      exact h.goto (by rw [recvMiss_walked]; exact Nat.zero_le _)
    · cases hs
      exact h.goto (Nat.le_succ_of_le hwalked)
  | recvCas k head pos n =>
    rw [hpc] at hs hwalked
    simp only [recvStep] at hs
    split_ifs at hs
    · cases hs
      have hdrain : Few (i + 1) (s.goto t (.drain n ⟨head.word, s.head.moves⟩ none [])) := h.goto (Nat.zero_le _)
      refine ⟨?_, hdrain.tail, hdrain.walked⟩
      calc s.head.moves + n ≤ i * i + i := Nat.add_le_add h.head hwalked
        _ ≤ (i + 1) * (i + 1) := by nlinarith
    · cases hs
      exact h.goto (by rw [recvRetry_walked]; exact Nat.zero_le _)
  | drain n pos item got =>
    rw [hpc] at hs
    cases n with
    | zero => cases hs
    | succ n =>
      cases item with
      | none =>
        simp only [recvStep] at hs
        split at hs
        · cases hs
          exact h.still (.drain (n + 1) pos (some _) got) rfl rfl rfl rfl
        · cases hs
          exact h.still .idle rfl rfl rfl rfl
      | some x =>
        simp only [recvStep] at hs
        split_ifs at hs
        · cases hs
          exact h.still .idle rfl rfl rfl rfl
        · cases hs
          exact h.still (.drain n (pos.advance L) none (got ++ [x])) rfl rfl rfl rfl
  | _ =>
    rw [hpc] at hs
    cases hs

theorem step_few {a : Act T} (h : Few i s) (hs : step L s a = some s') : Few (i + 1) s' := by
  cases a with
  | send t k =>
    simp only [step] at hs
    split_ifs at hs
    cases hs
    exact h.goto (Nat.zero_le _)
  | recv t k =>
    simp only [step] at hs
    split_ifs at hs
    cases hs
    exact h.goto (Nat.zero_le _)
  | run t spurious =>
    rcases Option.or_eq_some_iff.1 hs with hs | ⟨-, hs⟩
    · exact sendStep_few h hs
    · exact recvStep_few h hs

theorem Few.timely {n : ℕ} (h : Few i s) (hle : i ≤ n) (hshort : n * n + L.cap < L.period) : Timely L s := by
  have hsq : i * i ≤ n * n := Nat.mul_le_mul hle hle
  have htail := h.tail
  have hhead := h.head
  intro t
  cases s.pc t <;> first | exact trivial | (change _ + L.cap < _ + L.period; omega)

end Short

/-- a word comes back after at least `2 ^ 62` positions -/
theorem laps_period (cap : ℕ) (hpos : 0 < cap) (hle : cap < 2 ^ 32) : 2 ^ 62 ≤ (laps cap hpos hle).period := by
  have hclog : Nat.clog 2 (cap + 1) ≤ 32 := Nat.clog_le_of_le_pow hle
  have hlap : 2 ^ Nat.clog 2 (cap + 1) ≤ cap * 2 := by
    have hlog := Nat.pow_pred_clog_lt_self Nat.one_lt_two (show 1 < cap + 1 by omega)
    have hpred : Nat.clog 2 (cap + 1) = (Nat.clog 2 (cap + 1)).pred + 1 :=
      (Nat.succ_pred_eq_of_pos (Nat.clog_pos Nat.one_lt_two (by omega))).symm
    rw [hpred, pow_succ]
    exact Nat.mul_le_mul_right 2 (Nat.lt_succ_iff.1 hlog)
  have hperiod : (laps cap hpos hle).period = cap * 2 ^ (64 - Nat.clog 2 (cap + 1)) := by
    change cap * (Word.word / Word.nextPowerOfTwo (cap + 1)) = _
    rw [Word.nextPowerOfTwo_eq_clog (by omega), Word.word, Nat.pow_div (by omega) Nat.two_pos]
  refine Nat.le_of_mul_le_mul_right ?_ Nat.two_pos
  calc 2 ^ 62 * 2 ≤ 2 ^ 64 := by norm_num
    _ = 2 ^ Nat.clog 2 (cap + 1) * 2 ^ (64 - Nat.clog 2 (cap + 1)) := by rw [← pow_add]; congr 1; omega
    _ ≤ cap * 2 * 2 ^ (64 - Nat.clog 2 (cap + 1)) := Nat.mul_le_mul_right _ hlap
    _ = (laps cap hpos hle).period * 2 := by rw [hperiod]; ring

/-- in the first `2 ^ 30` steps no cursor comes round to a word a thread still holds -/
theorem short_timely {cap : ℕ} (hpos : 0 < cap) (hle : cap < 2 ^ 32) {acts : List (Act T)} (hlen : acts.length ≤ 2 ^ 30) :
    Machine.Along (step (laps cap hpos hle)) (Timely (laps cap hpos hle)) init acts := by
  have hperiod := laps_period cap hpos hle
  have hroom : 2 ^ 30 * 2 ^ 30 + (laps cap hpos hle).cap < (laps cap hpos hle).period := by
    change 2 ^ 30 * 2 ^ 30 + cap < _
    omega
  have hinit : Few 0 (init : St T) := ⟨le_rfl, le_rfl, fun _ => le_rfl⟩
  exact Machine.along_of_count step_few (fun hi hf => hf.timely hi hroom) hinit (by omega)

/-! ## Destruction -/

section Drop

variable (L : Laps)

/-- `Drop`: the values that are dropped, slot by slot -/
def St.drop (s : St T) : List (Option T) :=
  (List.range (L.len s.head.word s.tail.word)).map fun i => (s.slot (L.slotAt (L.index s.head.word) i)).value

variable {L} {s : St T}

/-- with no call under way, what is dropped is what is queued -/
theorem Inv.drop_eq (h : Inv L s) (hidle : ∀ t, s.pc t = .idle) : s.drop L = s.spec.queue.map some := by
  have hmoves : s.tail.moves = s.sent.length := congrArg Cursor.moves h.tail
  have hword : s.tail.word = L.word s.tail.moves := by rw [h.tail]
  have hle := h.le
  have hroom := h.room
  have hlen : L.len s.head.word s.tail.word = s.sent.length - s.head.moves := by
    rw [h.head, hword, Laps.len_word hle hroom, hmoves]
  refine List.ext_getElem? fun i => ?_
  simp only [St.drop, St.spec, hlen, List.getElem?_map, List.getElem?_drop]
  by_cases hi : i < s.sent.length - s.head.moves
  · rw [List.getElem?_range hi, Option.map_some, h.head, Laps.index_word, Laps.slotAt_mod _ (by omega)]
    have hready : Ready s (s.head.moves + i) := ⟨by omega, fun u => by rw [hidle u]; exact id⟩
    rw [h.ready _ (Nat.le_add_right _ _) hready, List.getElem?_eq_getElem (by omega)]
    rfl
  · rw [List.getElem?_eq_none (by rw [List.length_range]; omega), List.getElem?_eq_none (by omega)]
    rfl

end Drop

/-! ## Result -/

/-- any number of senders and receivers, item by item or in batches: every run is one of a queue of `cap` places, no live value is
overwritten and none is read twice, `full` and `empty` are answered only when they hold, items are claimed in the order they were
sent, each receiver gets what it claimed, and what is left is dropped -/
theorem ring_fifo {cap : ℕ} (hpos : 0 < cap) (hle : cap < 2 ^ 32) {acts : List (Act T)} {s : St T}
    (htime : Machine.Along (step (laps cap hpos hle)) (Timely (laps cap hpos hle)) init acts)
    (hrun : run (laps cap hpos hle) init acts = some s) :
    s.fault = false ∧ Accepts cap s.log s.spec ∧ s.spec.queue.length ≤ cap ∧
      pushed s.log = claimed s.log ++ s.spec.queue ∧ (∀ t, claimedBy t s.log = handed t s.log ++ s.spec.held t) ∧
      ((∀ t, s.pc t = .idle) → s.drop (laps cap hpos hle) = s.spec.queue.map some) := by
  have hinv := run_inv init_inv htime hrun
  exact ⟨hinv.sound, hinv.accepted, hinv.accepted.length_le, hinv.accepted.order, hinv.accepted.hands, hinv.drop_eq⟩

/-- two places: one item, a batch of which one fits, an offer to the full ring, a batch out, a look into the empty ring -/
def twoPlaces : List (Act ℕ) :=
  .send 0 (.push 7) :: List.replicate 5 (.run 0 false) ++ .send 1 (.batch [8, 9] 4) :: List.replicate 6 (.run 1 false) ++
    .send 0 (.oneshot 5) :: List.replicate 2 (.run 0 false) ++ .recv 2 (.batch 4 4) :: List.replicate 9 (.run 2 false) ++
    .recv 2 .pop :: List.replicate 3 (.run 2 false)

theorem ring_fifo_two : ∃ s, run (laps 2 (by decide) (by decide)) init twoPlaces = some s ∧
    s.log = [.push 0 [7], .push 1 [8], .full 0, .claim 2 [7, 8], .got 2 [7, 8], .empty 2] ∧
    pushed s.log = claimed s.log ++ s.spec.queue := by
  have hlog : (run (laps 2 (by decide) (by decide)) init twoPlaces).map St.log =
      some [.push 0 [7], .push 1 [8], .full 0, .claim 2 [7, 8], .got 2 [7, 8], .empty 2] := by decide
  obtain ⟨s, hs, hlog⟩ := Option.map_eq_some_iff.1 hlog
  have hfifo := ring_fifo (by decide) (by decide) (short_timely (by decide) (by decide) (by decide)) hs
  exact ⟨s, hs, hlog, hfifo.2.2.2.1⟩

end YouPipe.ArrayQueue
