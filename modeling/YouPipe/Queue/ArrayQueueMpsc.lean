/-
The ring of the many-producer one-consumer channels (`crossbeam/array_queue_mpsc.rs`), which `handoff::mpsc_channel` uses. Senders
and the receiver each own one 64-bit word with two 32-bit halves: `sender` is the tail and a copy of the head, `recv` is the head
and a copy of the tail, and each side looks at the other's word only when its copy tells it to.

As in `ArrayQueue` every step is one atomic access. Slots are not freed one by one: a store of `recv` frees all that the head
moved over, and a sender never looks at a stamp.

The copy of the tail is a hint. `pop_batch` may walk past it and then stores the larger of the two words, which is the later
position only until the words start again. `hang_after_a_turn` is what follows.
-/
import Mathlib.Tactic
import YouPipe.Core.Word
import YouPipe.Core.Laps
import YouPipe.Core.Fifo
import YouPipe.Core.Machine
import YouPipe.Queue.ArrayQueue

namespace YouPipe.ArrayQueueMpsc

open YouPipe.Ring YouPipe.Fifo
open YouPipe.ArrayQueue (Send)

/-- `ArrayQueueMpsc::new`: positions are words of 32 bits -/
def laps (cap : ℕ) (hpos : 0 < cap) (hle : cap < 2 ^ 31) : Laps where
  cap := cap
  lap := Word.nextPowerOfTwo (cap + 1)
  turns := 2 ^ 32 / Word.nextPowerOfTwo (cap + 1)
  bits := Nat.clog 2 (cap + 1)
  lap_eq := Word.nextPowerOfTwo_eq_clog (by omega)
  cap_pos := hpos
  cap_lt := by
    rw [Word.nextPowerOfTwo_eq_clog (by omega)]
    exact Nat.le_pow_clog Nat.one_lt_two (cap + 1)
  two_le := by
    have hclog : Nat.clog 2 (cap + 1) ≤ 31 := Nat.clog_le_of_le_pow hle
    rw [Word.nextPowerOfTwo_eq_clog (by omega), Nat.pow_div (by omega) Nat.two_pos]
    exact Nat.le_self_pow (by omega) 2

variable {T : Type}

/-! ## The queue -/

/-- the two halves of a word: the low one is this side's own cursor, the high one a copy of the other side's -/
structure Pair where
  cached : Cursor
  cur : Cursor
deriving DecidableEq, Repr

inductive Pc (T : Type)
  | idle
  /-- load `sender` -/
  | load (k : Send T)
  /-- full by the cached head: load `recv` -/
  | full (k : Send T) (w : Pair)
  /-- exchange `w` for the tail `n` positions on, with `head` as the cached head -/
  | cas (k : Send T) (w : Pair) (head : Cursor) (n : ℕ)
  /-- the items still to be published, the first of them at `pos` -/
  | fill (xs : List T) (pos : Cursor) (written : Bool)
deriving DecidableEq, Repr

/-- what the receiver calls: `pop` (or `start_read` and `read`), `pop_cached`, `pop_batch` into `room` places -/
inductive Recv
  | pop
  | cached
  | batch (room : ℕ)
deriving DecidableEq, Repr

inductive Rx (T : Type)
  | idle
  /-- load `recv` -/
  | load (k : Recv)
  /-- empty by the cached tail: load `sender` -/
  | tail (k : Recv) (head : Cursor)
  /-- load the stamp at `head`; `pop` waits here -/
  | stamp (k : Recv) (head cached : Cursor) (got : List T)
  | take (k : Recv) (head cached : Cursor) (got : List T)
  /-- store `recv` -/
  | store (head cached : Cursor) (got : List T)
deriving DecidableEq, Repr

structure St (T : Type) where
  /-- the tail, with a copy of the head -/
  sender : Pair
  /-- the head, with a copy of the tail -/
  recv : Pair
  slot : ℕ → Slot T
  pc : ℕ → Pc T
  rx : Rx T
  /-- the items of all positions claimed by senders -/
  sent : List T
  /-- the receiver is party 0 -/
  log : List (Event T)
  /-- a value was written over a live one, or read where there is none -/
  fault : Bool

def init : St T where
  sender := ⟨⟨0, 0⟩, ⟨0, 0⟩⟩
  recv := ⟨⟨0, 0⟩, ⟨0, 0⟩⟩
  slot := fun i => ⟨i, none⟩
  pc := fun _ => .idle
  rx := .idle
  sent := []
  log := []
  fault := false

namespace St

def goto (s : St T) (t : ℕ) (pc : Pc T) : St T := { s with pc := Function.update s.pc t pc }

def await (s : St T) (rx : Rx T) : St T := { s with rx := rx }

def note (s : St T) (es : List (Event T)) : St T := { s with log := s.log ++ es }

def setSlot (s : St T) (i : ℕ) (c : Slot T) : St T := { s with slot := Function.update s.slot i c }

end St

section Steps

variable (L : Laps)

/-! ## Senders -/

/-- the slots among the indices from `a` on and before `b` -/
def segReal (a b : ℕ) : ℕ := min b L.cap - min a L.cap

/-- the positions with a slot among the words from `start` on and before `stop` -/
def realPositions (start stop : ℕ) : ℕ :=
  if stop = start then 0
  else if (stop + L.size - start) % L.size = L.lap ∨ L.index stop ≤ L.index start then
    segReal L (L.index start) L.lap + segReal L 0 (L.index stop)
  else segReal L (L.index start) (L.index stop)

/-- how many positions a call claims, with `head` as the head -/
def claims (k : Send T) (w : Pair) (head : Cursor) : ℕ :=
  match k with
  | .push _ => 1
  | .oneshot _ => 1
  | .batch xs _ => min xs.length (realPositions L w.cur.word ((head.word + L.lap) % L.size))

/-- `sender` is `w` -/
def sendLook (k : Send T) (w : Pair) : Pc T :=
  if (w.cached.word + L.lap) % L.size = w.cur.word then .full k w
  else .cas k w w.cached (claims L k w w.cached)

/-- the exchange failed, `sender` is `w` -/
def sendRetry (k : Send T) (w : Pair) : Pc T :=
  match k with
  | .push _ => sendLook L k w
  | .oneshot _ => .idle
  | .batch xs tries => if 1 < tries then sendLook L (.batch xs (tries - 1)) w else .idle

def sendStep (s : St T) (t : ℕ) (spurious : Bool) : Pc T → Option (St T)
  | .load k => some (s.goto t (sendLook L k s.sender))
  | .full k w =>
    if s.recv.cur.word = w.cached.word then
      match k with
      | .batch _ _ => some (s.goto t .idle)
      | _ => some ((s.goto t .idle).note [.full t])
    else some (s.goto t (.cas k w s.recv.cur (claims L k w s.recv.cur)))
  | .cas k w head n =>
    if s.sender.cur.word = w.cur.word ∧ s.sender.cached.word = w.cached.word ∧ (spurious && k.weak) = false then
      let xs := k.items.take n
      some { (s.goto t (if xs.isEmpty then .idle else .fill xs ⟨w.cur.word, s.sender.cur.moves⟩ false)).note [.push t xs] with
        sender := ⟨head, ⟨L.advance^[n] w.cur.word, s.sender.cur.moves + n⟩⟩
        sent := s.sent ++ xs }
    else some (s.goto t (sendRetry L k s.sender))
  | .fill (x :: xs) pos false =>
    let c := s.slot (L.index pos.word)
    some { (s.setSlot (L.index pos.word) { c with value := some x }).goto t (.fill (x :: xs) pos true) with
      fault := s.fault || c.value.isSome }
  | .fill (_ :: xs) pos true =>
    let c := s.slot (L.index pos.word)
    some ((s.setSlot (L.index pos.word) { c with stamp := pos.word + 1 }).goto t
      (if xs.isEmpty then .idle else .fill xs (pos.advance L) false))
  | _ => none

/-! ## The receiver -/

/-- `tail_cached.max(head)` -/
def hint (cached head : Cursor) : Cursor := if head.word < cached.word then cached else head

/-- the walk of a batch ends -/
def recvEnd (head cached : Cursor) (got : List T) : Rx T :=
  if got.isEmpty then .idle else .store head (hint cached head) got

/-- an item can be there -/
def recvLook (k : Recv) (head cached : Cursor) (got : List T) : Rx T :=
  match k with
  | .batch room => if got.length < room then .stamp k head cached got else recvEnd head cached got
  | _ => .stamp k head cached got

/-- the item at `head` is not published -/
def recvMiss (k : Recv) (head cached : Cursor) (got : List T) : Rx T :=
  match k with
  | .batch _ => recvEnd head cached got
  | _ => .stamp k head cached got

/-- the head has moved over an item -/
def recvNext (k : Recv) (head cached : Cursor) (got : List T) : Rx T :=
  match k with
  | .batch _ => recvLook k head cached got
  | _ => .store head cached got

def recvStep (s : St T) : Rx T → Option (St T)
  | .idle => none
  | .load k =>
    if s.recv.cached.word = s.recv.cur.word then
      match k with
      | .cached => some (s.await .idle)
      | _ => some (s.await (.tail k s.recv.cur))
    else some (s.await (recvLook k s.recv.cur s.recv.cached []))
  | .tail k head =>
    if s.sender.cur.word = head.word then
      match k with
      | .batch _ => some (s.await .idle)
      | _ => some ((s.await .idle).note [.empty 0])
    else some (s.await (recvLook k head s.sender.cur []))
  | .stamp k head cached got =>
    if (s.slot (L.index head.word)).stamp = head.word + 1 then some (s.await (.take k head cached got))
    else some (s.await (recvMiss k head cached got))
  | .take k head cached got =>
    let c := s.slot (L.index head.word)
    match c.value with
    | some x =>
      some ((s.setSlot (L.index head.word) { c with value := none }).await (recvNext k (head.advance L) cached (got ++ [x])))
    | none => some { s.await .idle with fault := true }
  | .store head cached got => some { (s.await .idle).note [.claim 0 got, .got 0 got] with recv := ⟨cached, head⟩ }

/-! ## Runs -/

inductive Act (T : Type)
  | send (t : ℕ) (k : Send T)
  | recv (k : Recv)
  | run (t : ℕ) (spurious : Bool)
  | recvRun
deriving DecidableEq, Repr

def step (s : St T) : Act T → Option (St T)
  | .send t k =>
    match s.pc t with
    | .idle => some (s.goto t (.load k))
    | _ => none
  | .recv k =>
    match s.rx with
    | .idle => some (s.await (.load k))
    | _ => none
  | .run t spurious => sendStep L s t spurious (s.pc t)
  | .recvRun => recvStep L s s.rx

def run (s : St T) (acts : List (Act T)) : Option (St T) := acts.foldlM (step L) s

end Steps

/-! ## Claims -/

/-- a sender has claimed position `p` and not published it -/
def Pc.fills : Pc T → ℕ → Prop
  | .fill xs pos _, p => pos.moves ≤ p ∧ p < pos.moves + xs.length
  | _, _ => False

/-- no claim under way -/
def Pc.quiet : Pc T → Bool
  | .fill _ _ _ => false
  | _ => true

/-- the items the receiver has moved out and not accounted for in `recv` -/
def Rx.got : Rx T → List T
  | .stamp _ _ _ got => got
  | .take _ _ _ got => got
  | .store _ _ got => got
  | _ => []

/-- the queue this state stands for -/
def St.spec (s : St T) : Spec T := ⟨s.sent.drop s.recv.cur.moves, fun _ => []⟩

/-- the first position whose item is still in its slot -/
def St.next (s : St T) : ℕ := s.recv.cur.moves + s.rx.got.length

section Claims

variable (L : Laps)

/-- the stamp of a slot that waits for position `p`: what `new` gave it, or what the sender of the lap before did -/
def before (p : ℕ) : ℕ := if p < L.cap then p else L.word (p - L.cap) + 1

/-- the item of position `p` is in its slot -/
def Ready (s : St T) (p : ℕ) : Prop := s.next ≤ p ∧ p < s.sender.cur.moves ∧ ∀ u, ¬ (s.pc u).fills p

/-- a value of `sender` that was loaded earlier -/
structure Loaded (s : St T) (w : Pair) : Prop where
  cur : w.cur.word = L.word w.cur.moves
  cached : w.cached.word = L.word w.cached.moves
  cur_le : w.cur.moves ≤ s.sender.cur.moves
  cached_le : w.cached.moves ≤ s.recv.cur.moves
  le : w.cached.moves ≤ w.cur.moves
  room : w.cur.moves ≤ w.cached.moves + L.cap

/-- a head that has room behind the tail of `w` -/
structure Roomy (s : St T) (w : Pair) (head : Cursor) : Prop where
  word : head.word = L.word head.moves
  le : head.moves ≤ s.recv.cur.moves
  room : w.cur.moves < head.moves + L.cap

/-- a run of claimed positions being published: the first slot may be written, the others are as they were -/
structure Filling (s : St T) (xs : List T) (pos : Cursor) (written : Bool) : Prop where
  word : pos.word = L.word pos.moves
  some : 0 < xs.length
  ge : s.next ≤ pos.moves
  le : pos.moves + xs.length ≤ s.sender.cur.moves
  items : xs <+: s.sent.drop pos.moves
  first : s.slot (pos.moves % L.cap) = ⟨before L pos.moves, if written then s.sent[pos.moves]? else none⟩
  rest : ∀ p, pos.moves < p → p < pos.moves + xs.length → s.slot (p % L.cap) = ⟨before L p, none⟩

/-- what a sender knows -/
def PcOk (s : St T) : Pc T → Prop
  | .full _ w => Loaded L s w ∧ w.cur.moves = w.cached.moves + L.cap
  | .cas k w head n => Loaded L s w ∧ Roomy L s w head ∧ n = claims L k w head
  | .fill xs pos written => Filling L s xs pos written
  | _ => True

/-- the receiver's head and hint, and what it has moved out so far -/
structure Walking (s : St T) (head cached : Cursor) (got : List T) : Prop where
  head : head = ⟨L.word s.next, s.next⟩
  cached_word : cached.word = L.word cached.moves
  cached_le : cached.moves ≤ s.sender.cur.moves
  got : got = (s.sent.drop s.recv.cur.moves).take got.length

/-- what the receiver knows -/
def RxOk (s : St T) : Rx T → Prop
  | .tail _ head => head = s.recv.cur
  | .stamp _ head cached got => Walking L s head cached got
  | .take _ head cached got => Walking L s head cached got ∧ Ready s s.next
  | .store head cached got => Walking L s head cached got
  | _ => True

structure Inv (s : St T) : Prop where
  tail : s.sender.cur = ⟨L.word s.sent.length, s.sent.length⟩
  head : s.recv.cur.word = L.word s.recv.cur.moves
  headCopy : s.sender.cached.word = L.word s.sender.cached.moves
  headCopy_le : s.sender.cached.moves ≤ s.recv.cur.moves
  room : s.sender.cur.moves ≤ s.sender.cached.moves + L.cap
  tailCopy : s.recv.cached.word = L.word s.recv.cached.moves
  tailCopy_le : s.recv.cached.moves ≤ s.sender.cur.moves
  le : s.next ≤ s.sender.cur.moves
  free : ∀ p, s.sender.cur.moves ≤ p → p < s.recv.cur.moves + L.cap → s.slot (p % L.cap) = ⟨before L p, none⟩
  taken : ∀ p, s.recv.cur.moves ≤ p → p < s.next → s.slot (p % L.cap) = ⟨L.word p + 1, none⟩
  ready : ∀ p, Ready s p → s.slot (p % L.cap) = ⟨L.word p + 1, s.sent[p]?⟩
  pcs : ∀ t, PcOk L s (s.pc t)
  oneFiller : ∀ t u p, (s.pc t).fills p → (s.pc u).fills p → t = u
  rx : RxOk L s s.rx
  sound : s.fault = false
  accepted : Accepts L.cap s.log s.spec

/-- the words the thread will compare are less than a period old -/
def Pc.timely (s : St T) : Pc T → Prop
  | .full _ w => s.recv.cur.moves < w.cached.moves + L.period
  | .cas _ w _ _ => s.sender.cur.moves < w.cur.moves + L.period
  | _ => True

def Timely (s : St T) : Prop := ∀ t, (s.pc t).timely L s

end Claims

section Invariant

variable {L : Laps} {s s' : St T} {t : ℕ}

theorem before_add (p : ℕ) : before L (p + L.cap) = L.word p + 1 := by
  rw [before, if_neg (Nat.not_lt_of_le (Nat.le_add_left _ _)), Nat.add_sub_cancel]

theorem before_of_lt {p : ℕ} (h : p < L.cap) : before L p = p := if_pos h

/-- the old stamp is not the one of a published item -/
theorem before_ne (p : ℕ) : before L p ≠ L.word p + 1 := by
  rcases Nat.lt_or_ge p L.cap with hlt | hge
  · rw [before_of_lt hlt, Laps.word, Nat.div_eq_of_lt hlt, Nat.mod_eq_of_lt hlt]
    omega
  · obtain ⟨q, rfl⟩ := Nat.exists_eq_add_of_le' hge
    have hlong := L.cap_lt_period
    have hcap := L.cap_pos
    rw [before_add]
    intro heq
    have hsame := Laps.word_inj (Nat.add_right_cancel heq) (Nat.le_add_right _ _) (by omega)
    omega

theorem init_inv : Inv L (init : St T) where
  tail := by simp [init, Laps.word]
  head := by simp [init, Laps.word]
  headCopy := by simp [init, Laps.word]
  headCopy_le := le_rfl
  room := Nat.zero_le _
  tailCopy := by simp [init, Laps.word]
  tailCopy_le := le_rfl
  le := le_rfl
  free p _ hp := by
    have hlt : p < L.cap := by simpa [init] using hp
    rw [before_of_lt hlt]
    simp [init, Nat.mod_eq_of_lt hlt]
  taken p _ hp := absurd hp (Nat.not_lt_zero p)
  ready p hp := absurd hp.2.1 (Nat.not_lt_zero p)
  pcs _ := trivial
  oneFiller _ _ _ ht := ht.elim
  rx := trivial
  sound := rfl
  accepted := .nil

theorem Inv.moves (h : Inv L s) : s.sender.cur.moves = s.sent.length := congrArg Cursor.moves h.tail

theorem Inv.tail_word (h : Inv L s) : s.sender.cur.word = L.word s.sender.cur.moves := by rw [h.tail]

theorem head_le_next (s : St T) : s.recv.cur.moves ≤ s.next := Nat.le_add_right _ _

theorem Inv.full_le (h : Inv L s) : s.sender.cur.moves ≤ s.recv.cur.moves + L.cap :=
  h.room.trans (Nat.add_le_add_right h.headCopy_le _)

theorem Pc.not_fills {pc : Pc T} (h : pc.quiet = true) (p : ℕ) : ¬ pc.fills p := by
  cases pc <;> first | exact id | cases h

/-- a claim lies between what the receiver has moved out and the tail -/
theorem Inv.fills_bounds (h : Inv L s) {p : ℕ} (hp : (s.pc t).fills p) : s.next ≤ p ∧ p < s.sender.cur.moves := by
  have hok := h.pcs t
  cases hpc : s.pc t with
  | fill xs pos written =>
    rw [hpc] at hok hp
    exact ⟨hok.ge.trans hp.1, hp.2.trans_le hok.le⟩
  | _ =>
    rw [hpc] at hp
    exact hp.elim

theorem Inv.fills_stamp (h : Inv L s) {p : ℕ} (hp : (s.pc t).fills p) : (s.slot (p % L.cap)).stamp = before L p := by
  have hok := h.pcs t
  cases hpc : s.pc t with
  | fill xs pos written =>
    rw [hpc] at hok hp
    rcases Nat.eq_or_lt_of_le hp.1 with rfl | hlt
    · rw [hok.first]
    · rw [hok.rest p hlt hp.2]
  | _ =>
    rw [hpc] at hp
    exact hp.elim

theorem Loaded.mono {w : Pair} (h : Loaded L s w) (htail : s.sender.cur.moves ≤ s'.sender.cur.moves)
    (hhead : s.recv.cur.moves ≤ s'.recv.cur.moves) : Loaded L s' w :=
  ⟨h.cur, h.cached, h.cur_le.trans htail, h.cached_le.trans hhead, h.le, h.room⟩

/-- what a sender knows stays true when the cursors only grow and its own claims are left alone -/
theorem PcOk.frame {pc : Pc T} (h : PcOk L s pc) (htail : s.sender.cur.moves ≤ s'.sender.cur.moves)
    (hhead : s.recv.cur.moves ≤ s'.recv.cur.moves) (hsent : s.sent <+: s'.sent)
    (hitem : ∀ p < s.sender.cur.moves, s'.sent[p]? = s.sent[p]?)
    (hfill : ∀ p, pc.fills p → s'.next ≤ p ∧ s'.slot (p % L.cap) = s.slot (p % L.cap)) : PcOk L s' pc := by
  cases pc with
  | idle => trivial
  | load k => trivial
  | full k w => exact ⟨h.1.mono htail hhead, h.2⟩
  | cas k w head n => exact ⟨h.1.mono htail hhead, ⟨h.2.1.word, h.2.1.le.trans hhead, h.2.1.room⟩, h.2.2⟩
  | fill xs pos written =>
    have hown : ∀ p, pos.moves ≤ p → p < pos.moves + xs.length → s'.next ≤ p ∧ s'.slot (p % L.cap) = s.slot (p % L.cap) :=
      fun p hp hlt => hfill p ⟨hp, hlt⟩
    have hpos := Nat.lt_add_of_pos_right (n := pos.moves) h.some
    refine ⟨h.word, h.some, (hown _ le_rfl hpos).1, h.le.trans htail, h.items.trans (hsent.drop _), ?_, fun p hp hlt => ?_⟩
    · rw [(hown _ le_rfl hpos).2, h.first, hitem _ (hpos.trans_le h.le)]
    · rw [(hown p hp.le hlt).2, h.rest p hp hlt]

theorem sent_keep (h : Inv L s) (hsent : s.sent <+: s'.sent) : ∀ p < s.sender.cur.moves, s'.sent[p]? = s.sent[p]? := by
  intro p hp
  obtain ⟨more, hmore⟩ := hsent
  rw [← hmore, List.getElem?_append_left (h.moves ▸ hp)]

/-- what the receiver knows stays true when only senders move -/
theorem Walking.frame {head cached : Cursor} {got : List T} (hw : Walking L s head cached got) (h : Inv L s)
    (hgot : s.rx.got = got) (hrecv : s'.recv = s.recv) (hrx : s'.rx = s.rx) (hsent : s.sent <+: s'.sent)
    (htail : s.sender.cur.moves ≤ s'.sender.cur.moves) : Walking L s' head cached got := by
  have hnext : s'.next = s.next := by rw [St.next, St.next, hrecv, hrx]
  refine ⟨by rw [hnext]; exact hw.head, hw.cached_word, hw.cached_le.trans htail, ?_⟩
  obtain ⟨more, hmore⟩ := hsent
  have hle := h.le
  rw [St.next, hgot, h.moves] at hle
  rw [hrecv, ← hmore, List.drop_append_of_le_length (by omega), List.take_append_of_le_length (by rw [List.length_drop]; omega)]
  exact hw.got

theorem Ready.mono {p : ℕ} (h : Ready s p) (hnext : s'.next ≤ s.next) (htail : s.sender.cur.moves ≤ s'.sender.cur.moves)
    (hother : ∀ u, u ≠ t → s'.pc u = s.pc u) (hself : ¬ (s'.pc t).fills p) : Ready s' p := by
  refine ⟨hnext.trans h.1, h.2.1.trans_le htail, fun u hp => ?_⟩
  by_cases hu : u = t
  · subst hu
    exact hself hp
  · rw [hother u hu] at hp
    exact h.2.2 u hp

/-- a step of sender `t`: the others keep their claims, with the slots they are about -/
theorem Inv.senderStep (h : Inv L s) (hother : ∀ u, u ≠ t → s'.pc u = s.pc u) (hrecv : s'.recv = s.recv) (hrx : s'.rx = s.rx)
    (hself : PcOk L s' (s'.pc t)) (htail : s'.sender.cur = ⟨L.word s'.sent.length, s'.sent.length⟩)
    (hcopy : s'.sender.cached.word = L.word s'.sender.cached.moves) (hcopy_le : s'.sender.cached.moves ≤ s.recv.cur.moves)
    (hroom : s'.sender.cur.moves ≤ s'.sender.cached.moves + L.cap) (hsent : s.sent <+: s'.sent)
    (hfills : ∀ u, u ≠ t → ∀ p, (s.pc u).fills p → s'.slot (p % L.cap) = s.slot (p % L.cap) ∧ ¬ (s'.pc t).fills p)
    (hfree : ∀ p, s'.sender.cur.moves ≤ p → p < s.recv.cur.moves + L.cap → s'.slot (p % L.cap) = s.slot (p % L.cap))
    (htaken : ∀ p, s.recv.cur.moves ≤ p → p < s.next → s'.slot (p % L.cap) = s.slot (p % L.cap))
    (hready : ∀ p, Ready s p → ¬ (s'.pc t).fills p)
    (hslot : ∀ p, Ready s' p → s'.slot (p % L.cap) = ⟨L.word p + 1, s'.sent[p]?⟩)
    (hsound : s'.fault = false) (hlog : Accepts L.cap s'.log s'.spec) : Inv L s' := by
  have hmoves' : s'.sender.cur.moves = s'.sent.length := congrArg Cursor.moves htail
  have hmono : s.sender.cur.moves ≤ s'.sender.cur.moves := by
    rw [h.moves, hmoves']
    exact hsent.length_le
  have hnext : s'.next = s.next := by rw [St.next, St.next, hrecv, hrx]
  have hkeep : ∀ p, Ready s p → Ready s' p := fun p hp => hp.mono hnext.le hmono hother (hready p hp)
  refine ⟨htail, ?_, hcopy, ?_, hroom, ?_, ?_, ?_, fun p hp hlt => ?_, fun p hp hlt => ?_, hslot, fun u => ?_, fun u v p hu hv => ?_,
    ?_, hsound, hlog⟩
  · rw [hrecv]
    exact h.head
  · rw [hrecv]
    exact hcopy_le
  · rw [hrecv]
    exact h.tailCopy
  · rw [hrecv]
    exact h.tailCopy_le.trans hmono
  · rw [hnext]
    exact h.le.trans hmono
  · rw [hrecv] at hlt
    rw [hfree p hp hlt, h.free p (hmono.trans hp) hlt]
  · rw [hrecv] at hp
    rw [hnext] at hlt
    rw [htaken p hp hlt, h.taken p hp hlt]
  · by_cases hu : u = t
    · subst hu
      exact hself
    · rw [hother u hu]
      refine (h.pcs u).frame hmono (by rw [hrecv]) hsent (sent_keep h hsent) fun p hp => ⟨?_, (hfills u hu p hp).1⟩
      rw [hnext]
      exact (h.fills_bounds hp).1
  · refine ArrayQueue.one_claimer (t := t) (A := fun u => (s.pc u).fills p) (B := fun u => (s'.pc u).fills p)
      (fun u v => h.oneFiller u v p) ?_ ?_ u v hu hv
    · exact fun u hu hp => hother u hu ▸ hp
    · exact fun u hu hp => (hfills u hu p hp).2
  · have hrxOk := h.rx
    rw [hrx]
    cases hpc : s.rx with
    | idle => trivial
    | load k => trivial
    | tail k head =>
      rw [hpc] at hrxOk
      change head = s'.recv.cur
      rw [hrecv]
      exact hrxOk
    | stamp k head cached got =>
      rw [hpc] at hrxOk
      exact Walking.frame hrxOk h (by rw [hpc]; rfl) hrecv hrx hsent hmono
    | take k head cached got =>
      rw [hpc] at hrxOk
      exact ⟨Walking.frame hrxOk.1 h (by rw [hpc]; rfl) hrecv hrx hsent hmono, hnext ▸ hkeep _ hrxOk.2⟩
    | store head cached got =>
      rw [hpc] at hrxOk
      exact Walking.frame hrxOk h (by rw [hpc]; rfl) hrecv hrx hsent hmono

/-! ## Senders -/

theorem goto_self (s : St T) (t : ℕ) (pc : Pc T) : (s.goto t pc).pc t = pc := Function.update_self _ _ _

theorem goto_other (s : St T) {t u : ℕ} (h : u ≠ t) (pc : Pc T) : (s.goto t pc).pc u = s.pc u := Function.update_of_ne h _ _

theorem goto_ready {pc : Pc T} (hq : (s.pc t).quiet = true) {p : ℕ} (h : Ready (s.goto t pc) p) : Ready s p :=
  h.mono le_rfl le_rfl (fun _ hu => (goto_other s hu pc).symm) (Pc.not_fills hq p)

/-- a step without a claim -/
theorem Inv.quiet (h : Inv L s) {pc : Pc T} (hq : (s.pc t).quiet = true) (hq' : pc.quiet = true) (hok : PcOk L s pc) :
    Inv L (s.goto t pc) := by
  have hnone : ∀ p, ¬ ((s.goto t pc).pc t).fills p := by
    rw [goto_self]
    exact Pc.not_fills hq'
  refine h.senderStep (t := t) (fun u hu => goto_other s hu pc) rfl rfl ?_ h.tail h.headCopy h.headCopy_le h.room
    (List.prefix_refl _) (fun u _ p _ => ⟨rfl, hnone p⟩) (fun _ _ _ => rfl) (fun _ _ _ => rfl) (fun p _ => hnone p)
    (fun p hp => h.ready p (goto_ready hq hp)) h.sound h.accepted
  rw [goto_self]
  exact hok.frame le_rfl le_rfl (List.prefix_refl _) (fun _ _ => rfl) fun p hp => absurd hp (Pc.not_fills hq' p)

/-- answers, given when they are true -/
theorem Inv.note (h : Inv L s) {es : List (Event T)} (hlog : Accepts L.cap (s.log ++ es) s.spec) : Inv L (s.note es) :=
  h.senderStep (t := 0) (fun _ _ => rfl) rfl rfl
    ((h.pcs 0).frame le_rfl le_rfl (List.prefix_refl _) (fun _ _ => rfl) fun _ hp => ⟨(h.fills_bounds hp).1, rfl⟩) h.tail h.headCopy
    h.headCopy_le h.room (List.prefix_refl _) (fun u hu p hp => ⟨rfl, fun hp' => hu (h.oneFiller u 0 p hp hp')⟩) (fun _ _ _ => rfl)
    (fun _ _ _ => rfl) (fun _ hp => hp.2.2 0) h.ready h.sound hlog

/-- a newer copy of the head -/
theorem Inv.refresh (h : Inv L s) {head : Cursor} (hword : head.word = L.word head.moves) (hle : head.moves ≤ s.recv.cur.moves)
    (hroom : s.sender.cur.moves ≤ head.moves + L.cap) : Inv L { s with sender := ⟨head, s.sender.cur⟩ } :=
  h.senderStep (t := 0) (fun _ _ => rfl) rfl rfl
    ((h.pcs 0).frame le_rfl le_rfl (List.prefix_refl _) (fun _ _ => rfl) fun _ hp => ⟨(h.fills_bounds hp).1, rfl⟩) h.tail hword hle hroom
    (List.prefix_refl _) (fun u hu p hp => ⟨rfl, fun hp' => hu (h.oneFiller u 0 p hp hp')⟩) (fun _ _ _ => rfl) (fun _ _ _ => rfl)
    (fun _ hp => hp.2.2 0) h.ready h.sound h.accepted

/-- the tail moves over free slots -/
theorem Inv.claim (h : Inv L s) (hq : (s.pc t).quiet = true) (xs : List T) (hsome : 0 < xs.length)
    (hroom : s.sender.cur.moves + xs.length ≤ s.sender.cached.moves + L.cap) :
    Inv L { (s.goto t (.fill xs s.sender.cur false)).note [.push t xs] with
      sender := ⟨s.sender.cached, ⟨L.word (s.sender.cur.moves + xs.length), s.sender.cur.moves + xs.length⟩⟩
      sent := s.sent ++ xs } := by
  have hle := h.le
  have hcopy := h.headCopy_le
  have hhead := head_le_next s
  set s' : St T := { (s.goto t (.fill xs s.sender.cur false)).note [.push t xs] with
    sender := ⟨s.sender.cached, ⟨L.word (s.sender.cur.moves + xs.length), s.sender.cur.moves + xs.length⟩⟩
    sent := s.sent ++ xs } with hs'
  have hother : ∀ u, u ≠ t → s'.pc u = s.pc u := fun u hu => goto_other s hu _
  have hself : s'.pc t = .fill xs s.sender.cur false := goto_self s t _
  have hmine : ∀ p, (s'.pc t).fills p → s.sender.cur.moves ≤ p := by
    rw [hself]
    exact fun p hp => hp.1
  refine h.senderStep (t := t) hother rfl rfl ?_ ?_ h.headCopy h.headCopy_le hroom (List.prefix_append _ _) (fun u _ p hp => ⟨rfl, ?_⟩)
    (fun _ _ _ => rfl) (fun _ _ _ => rfl) (fun p hp hp' => ?_) (fun p hp => ?_) h.sound ?_
  · rw [hself]
    refine ⟨h.tail_word, hsome, h.le, le_rfl, ?_, ?_, fun p hp hlt => h.free p hp.le (by omega)⟩
    · rw [show s'.sent = s.sent ++ xs from rfl, h.moves, List.drop_left]
    · exact h.free _ le_rfl (by omega)
  · change (⟨L.word (s.sender.cur.moves + xs.length), s.sender.cur.moves + xs.length⟩ : Cursor) = _
    rw [show s'.sent = s.sent ++ xs from rfl, List.length_append, h.moves]
  · intro hp'
    exact absurd (h.fills_bounds hp).2 (Nat.not_lt_of_le (hmine p hp'))
  · exact absurd hp.2.1 (Nat.not_lt_of_le (hmine p hp'))
  · -- a position of the new claim is not ready, so the slot is an old one
    have hold : p < s.sender.cur.moves := by
      by_contra hge
      refine hp.2.2 t ?_
      rw [hself]
      exact ⟨Nat.le_of_not_lt hge, hp.2.1⟩
    have hready : Ready s p := by
      refine ⟨hp.1, hold, fun u hu => ?_⟩
      by_cases hut : u = t
      · subst hut
        exact Pc.not_fills hq p hu
      · exact hp.2.2 u (by rw [hother u hut]; exact hu)
    rw [sent_keep h (List.prefix_append s.sent xs) p hold]
    exact h.ready p hready
  · have hqueue : s'.spec = { s.spec with queue := s.spec.queue ++ xs } := by
      have hlen := h.moves
      unfold St.spec
      rw [show s'.sent = s.sent ++ xs from rfl, show s'.recv = s.recv from rfl, List.drop_append_of_le_length (by omega)]
    rw [hqueue]
    refine h.accepted.snoc (.push s.spec t xs ?_)
    have hlen := h.moves
    change (s.sent.drop s.recv.cur.moves).length + xs.length ≤ L.cap
    rw [List.length_drop]
    omega

theorem setSlot_of_ne (s : St T) {i j : ℕ} (h : j ≠ i) (c : Slot T) : (s.setSlot i c).slot j = s.slot j := Function.update_of_ne h _ _

/-- a step inside a claim: the first slot is changed, and the claim shrinks by at most this position -/
theorem Inv.fillStep (h : Inv L s) {xs : List T} {pos : Cursor} {written : Bool} (hpc : s.pc t = .fill xs pos written) {c : Slot T}
    {pc : Pc T} (hsub : ∀ p, pc.fills p → (s.pc t).fills p) (hsup : ∀ p, (s.pc t).fills p → p ≠ pos.moves → pc.fills p)
    (hok : PcOk L ((s.setSlot (pos.moves % L.cap) c).goto t pc) pc)
    (hpub : ¬ pc.fills pos.moves → c = ⟨L.word pos.moves + 1, s.sent[pos.moves]?⟩) :
    Inv L ((s.setSlot (pos.moves % L.cap) c).goto t pc) := by
  have hfull := h.full_le
  have hhead := head_le_next s
  have hfill := h.pcs t
  rw [hpc] at hfill
  have hge := hfill.ge
  have hlt : pos.moves < s.sender.cur.moves := (Nat.lt_add_of_pos_right hfill.some).trans_le hfill.le
  set s' : St T := (s.setSlot (pos.moves % L.cap) c).goto t pc with hs'
  have hother : ∀ u, u ≠ t → s'.pc u = s.pc u := fun u hu => goto_other _ hu _
  have hself : s'.pc t = pc := goto_self _ t _
  have hslot : ∀ p, s.recv.cur.moves ≤ p → p < s.recv.cur.moves + L.cap → p ≠ pos.moves → s'.slot (p % L.cap) = s.slot (p % L.cap) :=
    fun p hp hp' hne => setSlot_of_ne s (slot_ne hp hp' (by omega) (by omega) hne) c
  have hmine : (s.pc t).fills pos.moves := by
    rw [hpc]
    exact ⟨le_rfl, Nat.lt_add_of_pos_right hfill.some⟩
  refine h.senderStep (t := t) hother rfl rfl (by rw [hself]; exact hok) h.tail h.headCopy h.headCopy_le h.room (List.prefix_refl _)
    (fun u hu p hp => ⟨?_, ?_⟩) (fun p (hp : s.sender.cur.moves ≤ p) hp' => hslot p (by omega) hp' (by omega))
    (fun p hp hp' => hslot p hp (by omega) (by omega)) (fun p hp hp' => ?_) (fun p hp => ?_) h.sound h.accepted
  · have hb := h.fills_bounds hp
    exact hslot p (by omega) (by omega) fun heq => hu (h.oneFiller u t p hp (heq ▸ hmine))
  · rw [hself]
    exact fun hp' => hu (h.oneFiller u t p hp (hsub p hp'))
  · rw [hself] at hp'
    exact hp.2.2 t (hsub p hp')
  · have hnot := hp.2.2 t
    rw [hself] at hnot
    by_cases hpos : p = pos.moves
    · subst hpos
      rw [show s'.slot (pos.moves % L.cap) = c from Function.update_self _ _ _, hpub hnot]
      rfl
    · have hready : Ready s p := hp.mono le_rfl le_rfl (fun u hu => (hother u hu).symm) fun hp' => hnot (hsup p hp' hpos)
      have hp1 : s.next ≤ p := hp.1
      have hp2 : p < s.sender.cur.moves := hp.2.1
      rw [hslot p (by omega) (by omega) hpos]
      exact h.ready p hready

theorem Filling.item {x : T} {xs : List T} {pos : Cursor} {written : Bool} (hf : Filling L s (x :: xs) pos written) :
    s.sent[pos.moves]? = Option.some x := by
  obtain ⟨rest, hrest⟩ := hf.items
  rw [← Nat.add_zero pos.moves, ← List.getElem?_drop, ← hrest]
  rfl

theorem Filling.rest_keep {xs : List T} {pos : Cursor} {written : Bool} (h : Inv L s) (hf : Filling L s xs pos written) (c : Slot T)
    {p : ℕ} (hp : pos.moves < p) (hlt : p < pos.moves + xs.length) :
    (s.setSlot (pos.moves % L.cap) c).slot (p % L.cap) = ⟨before L p, none⟩ := by
  have hfull := h.full_le
  have hhead := head_le_next s
  have hle := hf.le
  have hge := hf.ge
  rw [setSlot_of_ne s (slot_ne (show s.recv.cur.moves ≤ _ by omega) (by omega) (by omega) (by omega) (by omega)), hf.rest p hp hlt]

/-- the value goes into the claimed slot -/
theorem Inv.write (h : Inv L s) {x : T} {xs : List T} {pos : Cursor} (hpc : s.pc t = .fill (x :: xs) pos false) :
    Inv L ((s.setSlot (pos.moves % L.cap) ⟨before L pos.moves, some x⟩).goto t (.fill (x :: xs) pos true)) := by
  have hfill := h.pcs t
  rw [hpc] at hfill
  refine h.fillStep hpc (fun p hp => by rw [hpc]; exact hp) (fun p hp _ => by rw [hpc] at hp; exact hp) ?_ ?_
  · refine ⟨hfill.word, hfill.some, hfill.ge, hfill.le, hfill.items, ?_, fun p hp hlt => hfill.rest_keep h _ hp hlt⟩
    rw [show ((s.setSlot (pos.moves % L.cap) ⟨before L pos.moves, some x⟩).goto t (.fill (x :: xs) pos true)).slot
      (pos.moves % L.cap) = ⟨before L pos.moves, some x⟩ from Function.update_self _ _ _]
    rw [if_pos rfl]
    exact congrArg (Slot.mk _) hfill.item.symm
  · exact fun hno => absurd ⟨le_rfl, Nat.lt_add_of_pos_right hfill.some⟩ hno

/-- the stamp makes the item visible to the receiver -/
theorem Inv.publish (h : Inv L s) {x : T} {xs : List T} {pos : Cursor} (hpc : s.pc t = .fill (x :: xs) pos true) :
    Inv L ((s.setSlot (pos.moves % L.cap) ⟨L.word pos.moves + 1, s.sent[pos.moves]?⟩).goto t
      (if xs.isEmpty then .idle else .fill xs (pos.advance L) false)) := by
  have hfill := h.pcs t
  rw [hpc] at hfill
  have hle := hfill.le
  have hge := hfill.ge
  have hlen : (x :: xs).length = xs.length + 1 := rfl
  cases xs with
  | nil =>
    refine h.fillStep hpc (fun p hp => hp.elim) (fun p hp hne => ?_) trivial fun _ => rfl
    rw [hpc] at hp
    have hlt : p < pos.moves + 1 := hp.2
    have hge : pos.moves ≤ p := hp.1
    omega
  | cons y ys =>
    refine h.fillStep hpc (fun p hp => ?_) (fun p hp hne => ?_) ?_ fun _ => rfl
    · rw [hpc]
      have hp1 : pos.moves + 1 ≤ p := hp.1
      have hp2 : p < pos.moves + 1 + (y :: ys).length := hp.2
      exact ⟨by omega, by rw [hlen]; omega⟩
    · rw [hpc] at hp
      have hp1 : pos.moves ≤ p := hp.1
      have hp2 : p < pos.moves + (x :: y :: ys).length := hp.2
      rw [hlen] at hp2
      exact ⟨by change pos.moves + 1 ≤ p; omega, by change p < pos.moves + 1 + (y :: ys).length; omega⟩
    · refine ⟨?_, Nat.succ_pos _, ?_, ?_, ?_, ?_, fun p hp hlt => ?_⟩
      · rw [Cursor.advance, hfill.word, Laps.advance_word]
      · change s.next ≤ pos.moves + 1
        omega
      · change pos.moves + 1 + (y :: ys).length ≤ s.sender.cur.moves
        omega
      · have htail := hfill.items.drop 1
        rw [List.drop_drop] at htail
        exact htail
      · exact hfill.rest_keep h _ (Nat.lt_succ_self _) (by rw [hlen, List.length_cons]; change pos.moves + 1 < _; omega)
      · have hp' : pos.moves + 1 < p := hp
        have hlt' : p < pos.moves + 1 + (y :: ys).length := hlt
        exact hfill.rest_keep h _ (by omega) (by rw [hlen]; omega)

/-- the count is right when the words are at most a buffer apart -/
theorem realPositions_word {p q : ℕ} (hle : p ≤ q) (hroom : q ≤ p + L.cap) : realPositions L (L.word p) (L.word q) = q - p := by
  have hlt := Laps.mod_lt (L := L) p
  have hlong := L.cap_lt_period
  have hcap := L.cap_lt
  have hpos := L.cap_pos
  have hsize : L.lap < L.size := by
    calc L.lap < L.lap * 2 := by omega
      _ ≤ L.size := Nat.mul_le_mul_left _ L.two_le
  obtain ⟨d, rfl⟩ := Nat.exists_eq_add_of_le hle
  have hne : 0 < d → L.word (p + d) ≠ L.word p := fun hd heq => by
    have hsame := Laps.word_inj heq.symm (Nat.le_add_right _ _) (by omega)
    omega
  unfold realPositions segReal
  rw [Laps.index_word, Laps.index_word, Nat.add_sub_cancel_left]
  rcases Nat.lt_or_eq_of_le (Nat.le_of_add_le_add_left hroom) with hd | rfl
  · rw [← Laps.slotAt_mod p hd, Laps.slotAt]
    by_cases hwrap : p % L.cap + d < L.cap
    · rw [if_pos hwrap]
      rcases Nat.eq_zero_or_pos d with rfl | hd'
      · rw [Nat.add_zero, if_pos rfl]
      · have hdist : (L.word (p + d) + L.size - L.word p) % L.size = d := by
          rw [Laps.word_add hwrap, Nat.add_assoc, Nat.add_sub_cancel_left, Nat.add_mod_right, Nat.mod_eq_of_lt (by omega)]
        rw [if_neg (hne hd'), hdist, if_neg (by omega)]
        omega
    · rw [if_neg hwrap, if_neg (hne (by omega)), if_pos (Or.inr (by omega))]
      omega
  · have hdist : (L.word (p + L.cap) + L.size - L.word p) % L.size = L.lap := by
      have hword : L.word p < L.size := Nat.lt_of_succ_lt (Laps.word_succ_lt p)
      rw [← Laps.word_add_lap]
      rcases Nat.lt_or_ge (L.word p + L.lap) L.size with hless | hge
      · rw [Nat.mod_eq_of_lt hless, Nat.add_assoc, Nat.add_sub_cancel_left, Nat.add_mod_right, Nat.mod_eq_of_lt hsize]
      · rw [Nat.mod_eq_sub_mod hge, Nat.mod_eq_of_lt (a := L.word p + L.lap - L.size) (by omega)]
        rw [Nat.sub_add_cancel hge, Nat.add_sub_cancel_left, Nat.mod_eq_of_lt hsize]
    rw [if_neg (hne hpos), hdist, if_pos (Or.inl rfl), Nat.add_mod_right]
    omega

/-- a call never claims more than is free, if the tail is still the one it loaded -/
theorem claims_le (h : Inv L s) {k : Send T} {w : Pair} {head : Cursor} (hl : Loaded L s w) (hr : Roomy L s w head)
    (hsame : w.cur.moves = s.sender.cur.moves) : s.sender.cur.moves + claims L k w head ≤ head.moves + L.cap := by
  have hroom := hr.room
  have hle := hr.le
  have hnext := h.le
  have hhead := head_le_next s
  rw [hsame] at hroom
  cases k with
  | push x => exact hroom
  | oneshot x => exact hroom
  | batch xs tries =>
    have hfree : realPositions L w.cur.word ((head.word + L.lap) % L.size) = head.moves + L.cap - s.sender.cur.moves := by
      rw [hl.cur, hr.word, Laps.word_add_lap, hsame]
      exact realPositions_word (by omega) (by omega)
    have hmin : claims L (.batch xs tries) w head ≤ head.moves + L.cap - s.sender.cur.moves := by
      rw [← hfree]
      exact Nat.min_le_right _ _
    omega

theorem Inv.loaded (h : Inv L s) : Loaded L s s.sender :=
  ⟨h.tail_word, h.headCopy, le_rfl, h.headCopy_le, (h.headCopy_le.trans (head_le_next s)).trans h.le, h.room⟩

theorem sendLook_ok (h : Inv L s) (k : Send T) : PcOk L s (sendLook L k s.sender) ∧ (sendLook L k s.sender).quiet = true := by
  have hl := h.loaded
  have hlong := L.cap_lt_period
  have hroom := hl.room
  have hle := hl.le
  unfold sendLook
  rw [hl.cached, hl.cur, Laps.word_add_lap]
  split_ifs with heq
  · exact ⟨⟨hl, Laps.word_inj heq.symm hroom (by omega)⟩, rfl⟩
  · refine ⟨⟨hl, ⟨hl.cached, hl.cached_le, Nat.lt_of_le_of_ne hroom fun hsame => heq ?_⟩, rfl⟩, rfl⟩
    rw [hsame]

theorem sendRetry_ok (h : Inv L s) (k : Send T) : PcOk L s (sendRetry L k s.sender) ∧ (sendRetry L k s.sender).quiet = true := by
  unfold sendRetry
  split
  · exact sendLook_ok h _
  · exact ⟨trivial, rfl⟩
  · split_ifs
    · exact sendLook_ok h _
    · exact ⟨trivial, rfl⟩

/-- the head is where a full sender saw it: the queue is full -/
theorem Inv.full (h : Inv L s) {w : Pair} (hl : Loaded L s w) (hfull : w.cur.moves = w.cached.moves + L.cap)
    (htime : s.recv.cur.moves < w.cached.moves + L.period) (heq : s.recv.cur.word = w.cached.word) :
    s.spec.queue.length = L.cap := by
  have hroom := h.full_le
  have hle := h.le
  have hhead := head_le_next s
  have hcur := hl.cur_le
  rw [h.head, hl.cached] at heq
  have hsame := Laps.word_inj heq.symm hl.cached_le htime
  rw [St.spec, List.length_drop, ← h.moves]
  omega

theorem claims_le_items (k : Send T) (w : Pair) (head : Cursor) : claims L k w head ≤ k.items.length := by
  cases k with
  | push x => exact le_rfl
  | oneshot x => exact le_rfl
  | batch xs tries => exact Nat.min_le_left _ _

/-- the exchange: a newer copy of the head, and the tail moves over free slots, if any -/
theorem Inv.exchange (h : Inv L s) (hq : (s.pc t).quiet = true) {head : Cursor} (hword : head.word = L.word head.moves)
    (hle : head.moves ≤ s.recv.cur.moves) (xs : List T) (hroom : s.sender.cur.moves + xs.length ≤ head.moves + L.cap) :
    Inv L { (s.goto t (if xs.isEmpty then .idle else .fill xs s.sender.cur false)).note [.push t xs] with
      sender := ⟨head, ⟨L.word (s.sender.cur.moves + xs.length), s.sender.cur.moves + xs.length⟩⟩
      sent := s.sent ++ xs } := by
  have hfresh : Inv L { s with sender := ⟨head, s.sender.cur⟩ } := h.refresh hword hle (by omega)
  cases xs with
  | nil =>
    have hidle : Inv L (({ s with sender := ⟨head, s.sender.cur⟩ } : St T).goto t .idle) := hfresh.quiet hq rfl trivial
    have hpush : Accepts L.cap (s.log ++ [.push t []]) s.spec := by
      have hsnoc := h.accepted.snoc (.push s.spec t [] (by rw [List.length_nil, Nat.add_zero]; exact h.accepted.length_le))
      rw [List.append_nil] at hsnoc
      exact hsnoc
    have hnote := hidle.note hpush
    rw [List.append_nil, List.length_nil, Nat.add_zero, ← h.tail_word]
    exact hnote
  | cons x xs => exact hfresh.claim hq (x :: xs) (Nat.succ_pos _) hroom

theorem sendStep_inv {spurious : Bool} (h : Inv L s) (ht : Timely L s) (hs : sendStep L s t spurious (s.pc t) = some s') :
    Inv L s' := by
  have hok := h.pcs t
  have htime := ht t
  cases hpc : s.pc t with
  | load k =>
    have hlook := sendLook_ok h k
    rw [hpc] at hs
    cases hs
    exact h.quiet (by rw [hpc]; rfl) hlook.2 hlook.1
  | full k w =>
    have hq : (s.pc t).quiet = true := by rw [hpc]; rfl
    rw [hpc] at hs hok htime
    obtain ⟨hl, hfull⟩ := hok
    have hidle : Inv L (s.goto t .idle) := h.quiet hq rfl trivial
    simp only [sendStep] at hs
    split_ifs at hs with heq
    · have hanswer : Inv L ((s.goto t .idle).note [.full t]) :=
        hidle.note (hidle.accepted.snoc (.full _ t (h.full hl hfull htime heq)))
      cases k with
      | batch xs tries =>
        cases hs
        exact hidle
      | push x =>
        cases hs
        exact hanswer
      | oneshot x =>
        cases hs
        exact hanswer
    · cases hs
      have hne : w.cached.moves ≠ s.recv.cur.moves := fun hsame => heq (by rw [h.head, hl.cached, hsame])
      have hless := hl.cached_le
      exact h.quiet hq rfl ⟨hl, ⟨h.head, le_rfl, by omega⟩, rfl⟩
  | cas k w head n =>
    have hq : (s.pc t).quiet = true := by rw [hpc]; rfl
    rw [hpc] at hs hok htime
    obtain ⟨hl, hr, rfl⟩ := hok
    rw [sendStep] at hs
    by_cases hcas : s.sender.cur.word = w.cur.word ∧ s.sender.cached.word = w.cached.word ∧ (spurious && k.weak) = false
    · rw [if_pos hcas] at hs
      cases hs
      have hsame : w.cur.moves = s.sender.cur.moves :=
        Laps.word_inj (by rw [← hl.cur, ← hcas.1, h.tail_word]) hl.cur_le htime
      have hclaims := claims_le (k := k) h hl hr hsame
      have hlen : (k.items.take (claims L k w head)).length = claims L k w head := List.length_take_of_le (claims_le_items k w head)
      have hcur : (⟨w.cur.word, s.sender.cur.moves⟩ : Cursor) = s.sender.cur := by rw [← hcas.1]
      have hmoved := h.exchange hq hr.word hr.le (k.items.take (claims L k w head)) (by rw [hlen]; exact hclaims)
      rw [hlen] at hmoved
      rw [hcur, hl.cur, Laps.iterate_advance, hsame]
      exact hmoved
    · rw [if_neg hcas] at hs
      cases hs
      have hretry := sendRetry_ok h k
      exact h.quiet hq hretry.2 hretry.1
  | fill xs pos written =>
    rw [hpc] at hs hok
    cases xs with
    | nil => cases hs
    | cons x xs =>
      cases written with
      | false =>
        cases hs
        rw [hok.word, Laps.index_word, hok.first]
        rw [if_neg Bool.false_ne_true, Option.isSome_none, Bool.or_false]
        exact h.write hpc
      | true =>
        cases hs
        rw [hok.word, Laps.index_word, hok.first]
        exact h.publish hpc
  | idle =>
    rw [hpc] at hs
    cases hs

/-! ## The receiver -/

/-- a step of the receiver: the senders keep their claims, with the slots they are about -/
theorem Inv.receiverStep (h : Inv L s) (hpc : s'.pc = s.pc) (hsender : s'.sender = s.sender) (hsent : s'.sent = s.sent)
    (hhead : s.recv.cur.moves ≤ s'.recv.cur.moves) (hword : s'.recv.cur.word = L.word s'.recv.cur.moves)
    (hcopy : s'.recv.cached.word = L.word s'.recv.cached.moves) (hcopy_le : s'.recv.cached.moves ≤ s.sender.cur.moves)
    (hle : s'.next ≤ s.sender.cur.moves)
    (hfills : ∀ u p, (s.pc u).fills p → s'.next ≤ p ∧ s'.slot (p % L.cap) = s.slot (p % L.cap))
    (hfree : ∀ p, s.sender.cur.moves ≤ p → p < s'.recv.cur.moves + L.cap → s'.slot (p % L.cap) = ⟨before L p, none⟩)
    (htaken : ∀ p, s'.recv.cur.moves ≤ p → p < s'.next → s'.slot (p % L.cap) = ⟨L.word p + 1, none⟩)
    (hready : ∀ p, Ready s' p → s'.slot (p % L.cap) = ⟨L.word p + 1, s.sent[p]?⟩) (hrx : RxOk L s' s'.rx)
    (hsound : s'.fault = false) (hlog : Accepts L.cap s'.log s'.spec) : Inv L s' := by
  refine ⟨?_, hword, ?_, ?_, ?_, hcopy, ?_, ?_, ?_, htaken, fun p hp => ?_, fun u => ?_, fun u v p hu hv => ?_, hrx, hsound, hlog⟩
  · rw [hsender, hsent]
    exact h.tail
  · rw [hsender]
    exact h.headCopy
  · rw [hsender]
    exact h.headCopy_le.trans hhead
  · rw [hsender]
    exact h.room
  · rw [hsender]
    exact hcopy_le
  · rw [hsender]
    exact hle
  · rw [hsender]
    exact hfree
  · rw [hsent]
    exact hready p hp
  · rw [hpc]
    exact (h.pcs u).frame (by rw [hsender]) hhead (by rw [hsent]) (fun _ _ => by rw [hsent]) (hfills u)
  · rw [hpc] at hu hv
    exact h.oneFiller u v p hu hv

/-- a step that moves nothing out -/
theorem Inv.await (h : Inv L s) {rx : Rx T} (hgot : rx.got = s.rx.got) (hok : RxOk L s rx) : Inv L (s.await rx) := by
  have hnext : (s.await rx).next = s.next := by
    change s.recv.cur.moves + rx.got.length = s.recv.cur.moves + s.rx.got.length
    rw [hgot]
  have hready : ∀ {p}, Ready (s.await rx) p ↔ Ready s p := by
    intro p
    unfold Ready
    rw [hnext]
    rfl
  have hwalk : ∀ {head cached : Cursor} {got : List T}, Walking L s head cached got → Walking L (s.await rx) head cached got :=
    fun hw => ⟨by rw [hnext]; exact hw.head, hw.cached_word, hw.cached_le, hw.got⟩
  refine h.receiverStep rfl rfl rfl le_rfl h.head h.tailCopy h.tailCopy_le (by rw [hnext]; exact h.le)
    (fun u p hp => ⟨by rw [hnext]; exact (h.fills_bounds hp).1, rfl⟩) h.free (by rw [hnext]; exact h.taken)
    (fun p hp => h.ready p (hready.1 hp)) ?_ h.sound h.accepted
  change RxOk L (s.await rx) rx
  cases rx with
  | idle => trivial
  | load k => trivial
  | tail k head => exact hok
  | stamp k head cached got => exact hwalk hok
  | take k head cached got => exact ⟨hwalk hok.1, by rw [hnext]; exact hready.2 hok.2⟩
  | store head cached got => exact hwalk hok

/-- the item at the head is moved out of its slot -/
theorem Inv.take (h : Inv L s) (hr : Ready s s.next) {x : T} {rx : Rx T} (hgot : rx.got = s.rx.got ++ [x])
    (hok : RxOk L ((s.setSlot (s.next % L.cap) ⟨L.word s.next + 1, none⟩).await rx) rx) :
    Inv L ((s.setSlot (s.next % L.cap) ⟨L.word s.next + 1, none⟩).await rx) := by
  have hfull := h.full_le
  have hhead := head_le_next s
  have hlt : s.next < s.sender.cur.moves := hr.2.1
  set s' : St T := (s.setSlot (s.next % L.cap) ⟨L.word s.next + 1, none⟩).await rx with hs'
  have hnext : s'.next = s.next + 1 := by
    change s.recv.cur.moves + rx.got.length = _
    rw [hgot, List.length_append, List.length_singleton, ← Nat.add_assoc]
    rfl
  have hslot : ∀ p, s.recv.cur.moves ≤ p → p < s.recv.cur.moves + L.cap → p ≠ s.next → s'.slot (p % L.cap) = s.slot (p % L.cap) :=
    fun p hp hp' hne => setSlot_of_ne s (slot_ne hp hp' hhead (by omega) hne) _
  refine h.receiverStep rfl rfl rfl le_rfl h.head h.tailCopy h.tailCopy_le (by rw [hnext]; exact hlt) (fun u p hp => ?_)
    (fun p hp (hp' : p < s.recv.cur.moves + L.cap) => ?_) (fun p (hp : s.recv.cur.moves ≤ p) hp' => ?_) (fun p hp => ?_) hok h.sound
    h.accepted
  · have hb := h.fills_bounds hp
    have hne : p ≠ s.next := fun heq => hr.2.2 u (heq ▸ hp)
    exact ⟨by omega, hslot p (by omega) (by omega) hne⟩
  · rw [hslot p (by omega) hp' (by omega)]
    exact h.free p hp hp'
  · rw [hnext] at hp'
    by_cases hpos : p = s.next
    · subst hpos
      exact Function.update_self _ _ _
    · rw [hslot p hp (by omega) hpos]
      exact h.taken p hp (by omega)
  · have hp1 := hp.1
    have hp2 : p < s.sender.cur.moves := hp.2.1
    rw [hnext] at hp1
    rw [hslot p (by omega) (by omega) (by omega)]
    exact h.ready p ⟨by omega, hp2, hp.2.2⟩

/-- one store gives up the slots of a whole batch -/
theorem Inv.store (h : Inv L s) {head cached : Cursor} (hw : Walking L s head cached s.rx.got) :
    Inv L { (s.await .idle).note [.claim 0 s.rx.got, .got 0 s.rx.got] with recv := ⟨cached, head⟩ } := by
  have hhead := head_le_next s
  have hle := h.le
  have hmoves := h.moves
  rw [hw.head]
  set s' : St T := { (s.await .idle).note [.claim 0 s.rx.got, .got 0 s.rx.got] with recv := ⟨cached, ⟨L.word s.next, s.next⟩⟩ } with hs'
  have hnext : s'.next = s.next := rfl
  refine h.receiverStep rfl rfl rfl hhead rfl hw.cached_word hw.cached_le h.le (fun u p hp => ⟨(h.fills_bounds hp).1, rfl⟩)
    (fun p hp (hp' : p < s.next + L.cap) => ?_) (fun p (hp : s.next ≤ p) hp' => absurd hp' (Nat.not_lt_of_le hp)) h.ready trivial
    h.sound ?_
  · change s.slot (p % L.cap) = _
    rcases Nat.lt_or_ge p (s.recv.cur.moves + L.cap) with hlt | hge
    · exact h.free p hp hlt
    · obtain ⟨q, rfl⟩ := Nat.exists_eq_add_of_le' (le_trans (Nat.le_add_left _ _) hge)
      rw [Nat.add_mod_right, before_add]
      exact h.taken q (by omega) (by omega)
  · have hsplit : s.spec.queue = s.rx.got ++ s.sent.drop s.next := by
      change s.sent.drop s.recv.cur.moves = _
      rw [St.next, ← List.drop_drop]
      conv_rhs => rw [hw.got]
      rw [List.length_take_of_le (by rw [List.length_drop]; rw [St.next] at hle; omega)]
      exact (List.take_append_drop _ _).symm
    have hclaim := h.accepted.snoc (.claim s.spec 0 s.rx.got (s.sent.drop s.next) hsplit rfl)
    have hgot := hclaim.snoc (.got _ 0 s.rx.got (show Function.update s.spec.held 0 s.rx.got 0 = _ from Function.update_self _ _ _))
    rw [List.append_assoc] at hgot
    have hspec : s'.spec = ⟨s.sent.drop s.next, Function.update (Function.update s.spec.held 0 s.rx.got) 0 []⟩ := by
      rw [Function.update_idem, Function.update_eq_self_iff.2]
      · rfl
      · rfl
    rw [hspec]
    exact hgot

/-- a stamp one above the word of its position: the item is published -/
theorem Inv.ready_next (h : Inv L s) (hstamp : (s.slot (s.next % L.cap)).stamp = L.word s.next + 1) : Ready s s.next := by
  have hfull := h.full_le
  have hhead := head_le_next s
  have hlong := L.cap_lt_period
  have hcap := L.cap_pos
  rcases Nat.lt_or_eq_of_le h.le with hlt | heq
  · refine ⟨le_rfl, hlt, fun u hu => ?_⟩
    rw [h.fills_stamp hu] at hstamp
    exact before_ne _ hstamp
  · exfalso
    rcases Nat.lt_or_ge s.next (s.recv.cur.moves + L.cap) with hless | hge
    · rw [h.free _ heq.ge hless] at hstamp
      exact before_ne _ hstamp
    · -- the whole buffer was moved out, and this is the slot of its first item
      have hround : s.next = s.recv.cur.moves + L.cap := by omega
      have hslot := h.taken s.recv.cur.moves le_rfl (by omega)
      rw [hround, Nat.add_mod_right, hslot] at hstamp
      have hsame := Laps.word_inj (Nat.add_right_cancel hstamp) (Nat.le_add_right _ _) (by omega)
      omega

theorem Walking.hint {head cached : Cursor} {got : List T} (h : Walking L s head cached got) (hle : s.next ≤ s.sender.cur.moves) :
    Walking L s head (hint cached head) got := by
  unfold ArrayQueueMpsc.hint
  split_ifs
  · exact h
  · refine ⟨h.head, ?_, ?_, h.got⟩
    · rw [h.head]
    · rw [h.head]
      exact hle

theorem recvEnd_got (head cached : Cursor) (got : List T) : (recvEnd head cached got).got = got := by
  unfold recvEnd
  split_ifs with hnil
  · exact (List.isEmpty_iff.1 hnil).symm
  · rfl

theorem recvLook_got (k : Recv) (head cached : Cursor) (got : List T) : (recvLook k head cached got).got = got := by
  unfold recvLook
  split
  · split_ifs
    · rfl
    · exact recvEnd_got head cached got
  · rfl

theorem recvMiss_got (k : Recv) (head cached : Cursor) (got : List T) : (recvMiss k head cached got).got = got := by
  unfold recvMiss
  split
  · exact recvEnd_got head cached got
  · rfl

theorem recvNext_got (k : Recv) (head cached : Cursor) (got : List T) : (recvNext k head cached got).got = got := by
  unfold recvNext
  split
  · exact recvLook_got _ head cached got
  · rfl

theorem recvEnd_ok {head cached : Cursor} {got : List T} (h : Walking L s head cached got) (hle : s.next ≤ s.sender.cur.moves) :
    RxOk L s (recvEnd head cached got) := by
  unfold recvEnd
  split_ifs
  · trivial
  · exact h.hint hle

theorem recvLook_ok {head cached : Cursor} {got : List T} (k : Recv) (h : Walking L s head cached got)
    (hle : s.next ≤ s.sender.cur.moves) : RxOk L s (recvLook k head cached got) := by
  unfold recvLook
  split
  · split_ifs
    · exact h
    · exact recvEnd_ok h hle
  · exact h

theorem recvMiss_ok {head cached : Cursor} {got : List T} (k : Recv) (h : Walking L s head cached got)
    (hle : s.next ≤ s.sender.cur.moves) : RxOk L s (recvMiss k head cached got) := by
  unfold recvMiss
  split
  · exact recvEnd_ok h hle
  · exact h

theorem recvNext_ok {head cached : Cursor} {got : List T} (k : Recv) (h : Walking L s head cached got)
    (hle : s.next ≤ s.sender.cur.moves) : RxOk L s (recvNext k head cached got) := by
  unfold recvNext
  split
  · exact recvLook_ok _ h hle
  · exact h

theorem Inv.walking (h : Inv L s) (hgot : s.rx.got = []) : Walking L s s.recv.cur s.recv.cached [] := by
  have hnext : s.next = s.recv.cur.moves := by rw [St.next, hgot, List.length_nil, Nat.add_zero]
  refine ⟨?_, h.tailCopy, h.tailCopy_le, rfl⟩
  rw [hnext, ← h.head]

/-- the tail is where the receiver's head is: the queue is empty -/
theorem Inv.empty (h : Inv L s) (heq : s.sender.cur.word = s.recv.cur.word) : s.spec.queue = [] := by
  have hfull := h.full_le
  have hhead := head_le_next s
  have hle := h.le
  have hlong := L.cap_lt_period
  rw [h.tail_word, h.head] at heq
  have hsame := Laps.word_inj heq.symm (by omega) (by omega)
  rw [St.spec, List.drop_eq_nil_iff, ← h.moves, hsame]

theorem recvStep_inv (h : Inv L s) (hs : recvStep L s s.rx = some s') : Inv L s' := by
  have hok := h.rx
  cases hrx : s.rx with
  | idle =>
    rw [hrx] at hs
    cases hs
  | load k =>
    have hgot : s.rx.got = [] := by rw [hrx]; rfl
    have hlook := recvLook_ok k (h.walking hgot) h.le
    rw [hrx] at hs
    simp only [recvStep] at hs
    split_ifs at hs
    · cases k with
      | cached =>
        cases hs
        exact h.await hgot.symm trivial
      | pop =>
        cases hs
        exact h.await hgot.symm rfl
      | batch room =>
        cases hs
        exact h.await hgot.symm rfl
    · cases hs
      exact h.await ((recvLook_got _ _ _ _).trans hgot.symm) hlook
  | tail k head =>
    have hgot : s.rx.got = [] := by rw [hrx]; rfl
    rw [hrx] at hs hok
    have hhead : head = s.recv.cur := hok
    have hwalk := h.walking hgot
    have hlook := recvLook_ok k (⟨hwalk.head, h.tail_word, le_rfl, hwalk.got⟩ : Walking L s s.recv.cur s.sender.cur []) h.le
    rw [← hhead] at hlook
    have hidle : Inv L (s.await .idle) := h.await hgot.symm trivial
    simp only [recvStep] at hs
    split_ifs at hs with heq
    · have hanswer : Inv L ((s.await .idle).note [.empty 0]) :=
        hidle.note (hidle.accepted.snoc (.empty _ 0 (h.empty (hhead ▸ heq))))
      cases k with
      | batch room =>
        cases hs
        exact hidle
      | pop =>
        cases hs
        exact hanswer
      | cached =>
        cases hs
        exact hanswer
    · cases hs
      exact h.await ((recvLook_got _ _ _ _).trans hgot.symm) hlook
  | stamp k head cached got =>
    have hgot : s.rx.got = got := by rw [hrx]; rfl
    rw [hrx] at hs hok
    have hwalk : Walking L s head cached got := hok
    simp only [recvStep] at hs
    split_ifs at hs with hstamp
    · cases hs
      rw [hwalk.head, Laps.index_word] at hstamp
      exact h.await hgot.symm ⟨hwalk, h.ready_next hstamp⟩
    · cases hs
      exact h.await ((recvMiss_got _ _ _ _).trans hgot.symm) (recvMiss_ok k hwalk h.le)
  | take k head cached got =>
    have hgot : s.rx.got = got := by rw [hrx]; rfl
    rw [hrx] at hs hok
    obtain ⟨hwalk, hready⟩ := hok
    have hmoves := h.moves
    have hlt := hready.2.1
    obtain ⟨x, hx⟩ : ∃ x, s.sent[s.next]? = some x := ⟨_, List.getElem?_eq_getElem (by omega)⟩
    have hslot : s.slot (L.index head.word) = ⟨L.word s.next + 1, some x⟩ := by
      rw [hwalk.head, Laps.index_word, ← hx]
      exact h.ready _ hready
    simp only [recvStep, hslot] at hs
    cases hs
    rw [hwalk.head, Laps.index_word]
    set rx := recvNext k (Cursor.advance L ⟨L.word s.next, s.next⟩) cached (got ++ [x]) with hnew
    have hrxgot : rx.got = s.rx.got ++ [x] := by rw [hnew, recvNext_got, hgot]
    have hnext : ((s.setSlot (s.next % L.cap) ⟨L.word s.next + 1, none⟩).await rx).next = s.next + 1 := by
      change s.recv.cur.moves + rx.got.length = _
      rw [hrxgot, List.length_append, List.length_singleton, ← Nat.add_assoc]
      rfl
    refine h.take hready hrxgot ?_
    refine recvNext_ok k ⟨?_, hwalk.cached_word, hwalk.cached_le, ?_⟩ (by rw [hnext]; exact hlt)
    · rw [hnext, Cursor.advance, Laps.advance_word]
    · change got ++ [x] = (s.sent.drop s.recv.cur.moves).take (got ++ [x]).length
      rw [List.length_append, List.length_singleton, List.take_add_one, ← hwalk.got, List.getElem?_drop]
      rw [show s.recv.cur.moves + got.length = s.next by rw [St.next, hgot], hx]
      rfl
  | store head cached got =>
    have hgot : s.rx.got = got := by rw [hrx]; rfl
    rw [hrx] at hs hok
    cases hs
    subst hgot
    exact h.store hok

theorem step_inv {a : Act T} (ht : Timely L s) (h : Inv L s) (hs : step L s a = some s') : Inv L s' := by
  cases a with
  | send t k =>
    simp only [step] at hs
    split at hs
    · next hpc =>
      cases hs
      exact h.quiet (by rw [hpc]; rfl) rfl trivial
    · cases hs
  | recv k =>
    simp only [step] at hs
    split at hs
    · next hrx =>
      cases hs
      exact h.await (by rw [hrx]; rfl) trivial
    · cases hs
  | run t spurious => exact sendStep_inv h ht hs
  | recvRun => exact recvStep_inv h hs

theorem run_inv {acts : List (Act T)} (h : Inv L s) (ht : Machine.Along (step L) (Timely L) s acts) (hr : run L s acts = some s') :
    Inv L s' :=
  Machine.run_keeps_along (fun ht h hs => step_inv ht h hs) h ht hr

/-! ## Short runs -/

/-- a sender leaves `recv` alone, and the tail only grows -/
theorem sendStep_frame {spurious : Bool} (hs : sendStep L s t spurious (s.pc t) = some s') :
    s'.recv = s.recv ∧ s'.rx = s.rx ∧ s.sent <+: s'.sent := by
  cases hpc : s.pc t with
  | idle =>
    rw [hpc] at hs
    cases hs
  | load k =>
    rw [hpc] at hs
    cases hs
    exact ⟨rfl, rfl, List.prefix_rfl⟩
  | full k w =>
    rw [hpc] at hs
    simp only [sendStep] at hs
    split_ifs at hs
    · cases k <;> (cases hs; exact ⟨rfl, rfl, List.prefix_rfl⟩)
    · cases hs
      exact ⟨rfl, rfl, List.prefix_rfl⟩
  | cas k w head n =>
    rw [hpc, sendStep] at hs
    split at hs
    · cases hs
      exact ⟨rfl, rfl, List.prefix_append _ _⟩
    · cases hs
      exact ⟨rfl, rfl, List.prefix_rfl⟩
  | fill xs pos written =>
    rw [hpc] at hs
    cases xs with
    | nil => cases hs
    | cons x xs => cases written <;> (cases hs; exact ⟨rfl, rfl, List.prefix_rfl⟩)

theorem recvStep_next (hok : RxOk L s s.rx) (hs : recvStep L s s.rx = some s') : s'.next ≤ s.next + 1 := by
  have hkeep : ∀ {rx : Rx T}, rx.got.length ≤ s.rx.got.length + 1 → (s.await rx).next ≤ s.next + 1 :=
    fun hle => Nat.add_le_add_left hle s.recv.cur.moves
  cases hrx : s.rx with
  | idle =>
    rw [hrx] at hs
    cases hs
  | load k =>
    rw [hrx] at hs
    simp only [recvStep] at hs
    split_ifs at hs
    · cases k <;> (cases hs; exact hkeep (Nat.zero_le _))
    · cases hs
      exact hkeep (by rw [recvLook_got]; exact Nat.zero_le _)
  | tail k head =>
    rw [hrx] at hs
    simp only [recvStep] at hs
    split_ifs at hs
    · cases k <;> (cases hs; exact hkeep (Nat.zero_le _))
    · cases hs
      exact hkeep (by rw [recvLook_got]; exact Nat.zero_le _)
  | stamp k head cached got =>
    have hgot : s.rx.got = got := by rw [hrx]; rfl
    rw [hrx, recvStep] at hs
    split_ifs at hs
    · cases hs
      exact hkeep (by rw [hgot]; exact Nat.le_succ _)
    · cases hs
      exact hkeep (by rw [recvMiss_got, hgot]; exact Nat.le_succ _)
  | take k head cached got =>
    have hgot : s.rx.got = got := by rw [hrx]; rfl
    rw [hrx, recvStep] at hs
    split at hs
    · cases hs
      exact hkeep (by rw [recvNext_got, List.length_append, hgot]; exact le_rfl)
    · cases hs
      exact hkeep (Nat.zero_le _)
  | store head cached got =>
    rw [hrx] at hs hok
    have hwalk : Walking L s head cached got := hok
    cases hs
    change head.moves + 0 ≤ s.next + 1
    rw [hwalk.head]
    exact Nat.le_succ _

theorem step_next {a : Act T} (h : Inv L s) (hs : step L s a = some s') : s'.next ≤ s.next + 1 := by
  cases a with
  | send t k =>
    simp only [step] at hs
    split at hs
    · cases hs
      exact Nat.le_succ _
    · cases hs
  | recv k =>
    simp only [step] at hs
    split at hs
    · cases hs
      change s.recv.cur.moves + 0 ≤ s.next + 1
      exact (head_le_next s).trans (Nat.le_succ _)
    · cases hs
  | run t spurious =>
    obtain ⟨hrecv, hrx, -⟩ := sendStep_frame hs
    rw [St.next, hrecv, hrx]
    exact Nat.le_succ _
  | recvRun => exact recvStep_next h.rx hs

/-- every claim of a run is the receiver's, and it has the items in hand at once -/
theorem step_log {a : Act T} (hs : step L s a = some s') : ∃ es, s'.log = s.log ++ es ∧ claimed es = handed 0 es := by
  have hsame : ∀ {s' : St T}, s'.log = s.log → ∃ es, s'.log = s.log ++ es ∧ claimed es = handed 0 es :=
    fun h => ⟨[], by rw [h, List.append_nil], rfl⟩
  cases a with
  | send t k =>
    simp only [step] at hs
    split at hs
    · cases hs
      exact hsame rfl
    · cases hs
  | recv k =>
    simp only [step] at hs
    split at hs
    · cases hs
      exact hsame rfl
    · cases hs
  | run t spurious =>
    cases hpc : s.pc t with
    | idle =>
      rw [step, hpc] at hs
      cases hs
    | load k =>
      rw [step, hpc] at hs
      cases hs
      exact hsame rfl
    | full k w =>
      rw [step, hpc] at hs
      simp only [sendStep] at hs
      split_ifs at hs
      · cases k with
        | batch xs tries =>
          cases hs
          exact hsame rfl
        | push x =>
          cases hs
          exact ⟨[.full t], rfl, rfl⟩
        | oneshot x =>
          cases hs
          exact ⟨[.full t], rfl, rfl⟩
      · cases hs
        exact hsame rfl
    | cas k w head n =>
      rw [step, hpc, sendStep] at hs
      split at hs
      · cases hs
        exact ⟨[.push t (k.items.take n)], rfl, rfl⟩
      · cases hs
        exact hsame rfl
    | fill xs pos written =>
      rw [step, hpc] at hs
      cases xs with
      | nil => cases hs
      | cons x xs => cases written <;> (cases hs; exact hsame rfl)
  | recvRun =>
    cases hrx : s.rx with
    | idle =>
      rw [step, hrx] at hs
      cases hs
    | load k =>
      rw [step, hrx] at hs
      simp only [recvStep] at hs
      split_ifs at hs
      · cases k <;> (cases hs; exact hsame rfl)
      · cases hs
        exact hsame rfl
    | tail k head =>
      rw [step, hrx] at hs
      simp only [recvStep] at hs
      split_ifs at hs
      · cases k with
        | batch room =>
          cases hs
          exact hsame rfl
        | pop =>
          cases hs
          exact ⟨[.empty 0], rfl, rfl⟩
        | cached =>
          cases hs
          exact ⟨[.empty 0], rfl, rfl⟩
      · cases hs
        exact hsame rfl
    | stamp k head cached got =>
      rw [step, hrx, recvStep] at hs
      split_ifs at hs <;> (cases hs; exact hsame rfl)
    | take k head cached got =>
      rw [step, hrx, recvStep] at hs
      split at hs <;> (cases hs; exact hsame rfl)
    | store head cached got =>
      rw [step, hrx] at hs
      cases hs
      exact ⟨[.claim 0 got, .got 0 got], rfl, rfl⟩

theorem run_hands {acts : List (Act T)} (hrun : run L init acts = some s) : claimed s.log = handed 0 s.log := by
  refine Machine.run_keeps (P := fun s : St T => claimed s.log = handed 0 s.log) (fun {a s s'} _ h hs => ?_) rfl hrun
  obtain ⟨es, hlog, hes⟩ := step_log hs
  simp only [hlog, claimed, handed, List.flatMap_append] at h hes ⊢
  rw [h, hes]

/-- the receiver has moved out few items: no sender can be a period behind -/
theorem Inv.timely (h : Inv L s) (hfew : s.next + L.cap < L.period) : Timely L s := by
  have hfull := h.full_le
  have hhead := head_le_next s
  intro t
  cases s.pc t with
  | full k w =>
    change s.recv.cur.moves < w.cached.moves + L.period
    omega
  | cas k w head n =>
    change s.sender.cur.moves < w.cur.moves + L.period
    omega
  | _ => trivial

end Invariant

/-- a word comes back after at least `2 ^ 31` positions, and at least two buffers -/
theorem laps_period (cap : ℕ) (hpos : 0 < cap) (hle : cap < 2 ^ 31) :
    2 ^ 31 ≤ (laps cap hpos hle).period ∧ cap * 2 ≤ (laps cap hpos hle).period := by
  have hclog : Nat.clog 2 (cap + 1) ≤ 31 := Nat.clog_le_of_le_pow hle
  have hlap : 2 ^ Nat.clog 2 (cap + 1) ≤ cap * 2 := by
    have hlog := Nat.pow_pred_clog_lt_self Nat.one_lt_two (show 1 < cap + 1 by omega)
    have hpred : Nat.clog 2 (cap + 1) = (Nat.clog 2 (cap + 1)).pred + 1 :=
      (Nat.succ_pred_eq_of_pos (Nat.clog_pos Nat.one_lt_two (by omega))).symm
    rw [hpred, pow_succ]
    exact Nat.mul_le_mul_right 2 (Nat.lt_succ_iff.1 hlog)
  have hperiod : (laps cap hpos hle).period = cap * 2 ^ (32 - Nat.clog 2 (cap + 1)) := by
    change cap * (2 ^ 32 / Word.nextPowerOfTwo (cap + 1)) = _
    rw [Word.nextPowerOfTwo_eq_clog (by omega), Nat.pow_div (by omega) Nat.two_pos]
  refine ⟨Nat.le_of_mul_le_mul_right ?_ Nat.two_pos, Nat.mul_le_mul_left _ (laps cap hpos hle).two_le⟩
  calc 2 ^ 31 * 2 = 2 ^ Nat.clog 2 (cap + 1) * 2 ^ (32 - Nat.clog 2 (cap + 1)) := by rw [← pow_add, ← pow_succ]; congr 1; omega
    _ ≤ cap * 2 * 2 ^ (32 - Nat.clog 2 (cap + 1)) := Nat.mul_le_mul_right _ hlap
    _ = (laps cap hpos hle).period * 2 := by rw [hperiod]; ring

/-- in the first `2 ^ 30` steps no word comes round to one a thread still holds -/
theorem short_timely {cap : ℕ} (hpos : 0 < cap) (hle : cap < 2 ^ 31) {acts : List (Act T)} (hlen : acts.length < 2 ^ 30) :
    Machine.Along (step (laps cap hpos hle)) (Timely (laps cap hpos hle)) init acts := by
  set L := laps cap hpos hle with hL
  have hperiod := laps_period cap hpos hle
  have hcap : L.cap = cap := rfl
  rw [← hL] at hperiod
  have htime : ∀ {i : ℕ} {s : St T}, i < 2 ^ 30 → Inv L s → s.next ≤ i → Timely L s := fun hi h hn => h.timely (by omega)
  refine Machine.along_of_count (R := fun i s => i < 2 ^ 30 → Inv L s ∧ s.next ≤ i) (i := 0) (n := acts.length) ?_ ?_ ?_ (by omega)
  · intro i a s s' h hs hi
    obtain ⟨hinv, hn⟩ := h (by omega)
    exact ⟨step_inv (htime (by omega) hinv hn) hinv hs, (step_next hinv hs).trans (Nat.succ_le_succ hn)⟩
  · intro i s hi h
    obtain ⟨hinv, hn⟩ := h (by omega)
    exact htime (by omega) hinv hn
  · exact fun _ => ⟨init_inv, le_rfl⟩

/-! ## Destruction -/

/-- `Drop`: the values that are dropped, slot by slot -/
def St.drop (L : Laps) (s : St T) : List (Option T) :=
  (List.range (L.len s.recv.cur.word s.sender.cur.word)).map fun i => (s.slot (L.slotAt (L.index s.recv.cur.word) i)).value

/-- with no call under way, what is dropped is what is queued -/
theorem Inv.drop_eq {L : Laps} {s : St T} (h : Inv L s) (hidle : ∀ t, s.pc t = .idle) (hrx : s.rx = .idle) :
    s.drop L = s.spec.queue.map some := by
  have hmoves := h.moves
  have hroom := h.full_le
  have hnext : s.next = s.recv.cur.moves := by rw [St.next, hrx]; rfl
  have hle := h.le
  rw [hnext] at hle
  have hlen : L.len s.recv.cur.word s.sender.cur.word = s.sent.length - s.recv.cur.moves := by
    rw [h.head, h.tail_word, Laps.len_word hle hroom, hmoves]
  refine List.ext_getElem? fun i => ?_
  simp only [St.drop, St.spec, hlen, List.getElem?_map, List.getElem?_drop]
  by_cases hi : i < s.sent.length - s.recv.cur.moves
  · rw [List.getElem?_range hi, Option.map_some, h.head, Laps.index_word, Laps.slotAt_mod _ (by omega)]
    have hready : Ready s (s.recv.cur.moves + i) := ⟨by omega, by omega, fun u => by rw [hidle u]; exact id⟩
    rw [h.ready _ hready, List.getElem?_eq_getElem (by omega)]
    rfl
  · rw [List.getElem?_eq_none (by rw [List.length_range]; omega), List.getElem?_eq_none (by omega)]
    rfl

/-! ## Result -/

/-- any number of senders and one receiver, item by item or in batches: every run is one of a queue of `cap` places, no live value
is overwritten and none is read twice, `full` and `empty` are answered only when they hold, items come out in the order they were
sent, and what is left is dropped -/
theorem mpsc_fifo {cap : ℕ} (hpos : 0 < cap) (hle : cap < 2 ^ 31) {acts : List (Act T)} {s : St T}
    (htime : Machine.Along (step (laps cap hpos hle)) (Timely (laps cap hpos hle)) init acts)
    (hrun : run (laps cap hpos hle) init acts = some s) :
    s.fault = false ∧ Accepts cap s.log s.spec ∧ s.spec.queue.length ≤ cap ∧ pushed s.log = handed 0 s.log ++ s.spec.queue ∧
      ((∀ t, s.pc t = .idle) → s.rx = .idle → s.drop (laps cap hpos hle) = s.spec.queue.map some) := by
  have hinv := run_inv init_inv htime hrun
  refine ⟨hinv.sound, hinv.accepted, hinv.accepted.length_le, ?_, hinv.drop_eq⟩
  rw [hinv.accepted.order, run_hands hrun]

/-- three places: one item, a batch of which two fit, an offer to the full ring, a batch out, a look into the empty ring -/
def threePlaces : List (Act ℕ) :=
  .send 0 (.push 7) :: List.replicate 4 (.run 0 false) ++ .send 1 (.batch [8, 9, 10] 4) :: List.replicate 6 (.run 1 false) ++
    .send 0 (.oneshot 5) :: List.replicate 2 (.run 0 false) ++ .recv (.batch 4) :: List.replicate 10 .recvRun ++
    .recv .pop :: List.replicate 2 .recvRun

theorem mpsc_fifo_three : ∃ s, run (laps 3 (by decide) (by decide)) init threePlaces = some s ∧
    s.log = [.push 0 [7], .push 1 [8, 9], .full 0, .claim 0 [7, 8, 9], .got 0 [7, 8, 9], .empty 0] ∧
    pushed s.log = handed 0 s.log ++ s.spec.queue := by
  have hlog : (run (laps 3 (by decide) (by decide)) init threePlaces).map St.log =
      some [.push 0 [7], .push 1 [8, 9], .full 0, .claim 0 [7, 8, 9], .got 0 [7, 8, 9], .empty 0] := by decide
  obtain ⟨s, hs, hlog⟩ := Option.map_eq_some_iff.1 hlog
  have hfifo := mpsc_fifo (by decide) (by decide) (short_timely (by decide) (by decide) (by decide)) hs
  exact ⟨s, hs, hlog, hfifo.2.2.2.1⟩

end YouPipe.ArrayQueueMpsc
