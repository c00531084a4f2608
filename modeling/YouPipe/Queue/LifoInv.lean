/-
What the local deques hold. Past the head come the slots a thief is about to leave, then the items, then the slots the owner has
written and not yet published or claimed and not yet read. A thief's exchange succeeds only when nothing was popped or stolen since it
looked, as long as the counters do not come round in between (`Timely`); the owner needs no such assumption.
-/
import Mathlib.Tactic
import YouPipe.Core.Word
import YouPipe.Core.Window
import YouPipe.Core.Deques
import YouPipe.Core.Machine
import YouPipe.Queue.Lifo

namespace YouPipe.Lifo

open YouPipe.Ring YouPipe.Deques

variable {T : Type}

/-! ## Counters -/

/-- the word of a counter that has moved that far -/
def Count.Ok (c : Count) : Prop := c.word = c.moves % short

namespace Count

variable {c d : Count} {n cap : ℕ}

theorem Ok.add (h : c.Ok) (n : ℕ) : (c.add n).Ok := by
  simp only [Ok, Count.add, short] at h ⊢
  omega

theorem Ok.sub (hc : c.Ok) (hd : d.Ok) (hle : d.moves ≤ c.moves) : (c.sub d).Ok := by
  simp only [Ok, Count.sub, short] at hc hd ⊢
  omega

theorem Ok.dist_eq (hc : c.Ok) (hd : d.Ok) (hle : d.moves ≤ c.moves) (hlt : c.moves < d.moves + short) :
    c.dist d = c.moves - d.moves := by
  simp only [Ok, Count.dist, short] at hc hd hlt ⊢
  omega

/-- words that are equal less than a turn apart -/
theorem Ok.inj (hc : c.Ok) (hd : d.Ok) (hword : c.word = d.word) (hle : c.moves < d.moves + short) (hge : d.moves < c.moves + short) :
    c.moves = d.moves := by
  simp only [Ok, short] at hc hd hle hge
  omega

theorem Ok.slot (h : c.Ok) (hcap : cap ∣ short) (k : ℕ) : (c.word + k) % short % cap = (c.moves + k) % cap := by
  rw [Nat.mod_mod_of_dvd _ hcap, Nat.add_mod, h, Nat.mod_mod_of_dvd _ hcap, ← Nat.add_mod]

theorem Ok.slot_zero (h : c.Ok) (hcap : cap ∣ short) : c.word % cap = c.moves % cap := by
  rw [h, Nat.mod_mod_of_dvd _ hcap]

theorem Ok.slot_pred (h : c.Ok) (hcap : cap ∣ short) (hpos : 0 < c.moves) : (c.word + short - 1) % short % cap = (c.moves - 1) % cap := by
  have hpred : (c.word + short - 1) % short = (c.moves - 1) % short := by
    simp only [Ok, short] at h ⊢
    omega
  rw [hpred, Nat.mod_mod_of_dvd _ hcap]

end Count

/-! ## Claims -/

namespace Pc

/-- the slots of its victim that a thief has not left yet -/
def left (hand : List T) : Pc T → List (Option T)
  | .move _ _ _ k => List.replicate k none ++ (hand.drop k).map some
  | .landPush _ _ count _ => List.replicate count none
  | .landHead _ _ count _ => List.replicate count none
  | _ => []

/-- the slots past the end of its own deque that hold an item -/
def ahead (hand : List T) : Pc T → List T
  | .pushStore x => [x]
  | .popRead _ => hand
  | .move _ _ _ k => hand.take k
  | .landPush _ _ count _ => hand.take (count - 1)
  | _ => []

/-- the deque a thief has claimed items of -/
def robs : Pc T → Option ℕ
  | .move j _ _ _ => some j
  | .landPush j _ _ _ => some j
  | .landHead j _ _ _ => some j
  | _ => none

end Pc

structure QueueOk (cap : ℕ) (q : Queue T) (items : List T) : Prop where
  push : q.pushCount.Ok
  pop : q.popCount.Ok
  booked : q.booked.Ok
  head : q.head.Ok
  pops : q.popCount.moves ≤ q.pushCount.moves
  head_le : q.head.moves ≤ q.booked.moves
  length : q.booked.moves + items.length = q.tail.moves
  room : q.tail.moves ≤ q.head.moves + cap

/-- what a thief has loaded of `pop_count_and_head` -/
structure Seen (cap : ℕ) (q : Queue T) (pop booked : Count) : Prop where
  pop_ok : pop.Ok
  booked_ok : booked.Ok
  pop_le : pop.moves ≤ q.popCount.moves
  booked_le : booked.moves ≤ q.booked.moves
  near : booked.moves ≤ q.head.moves + cap

/-- `room` items, all but one of them for the own deque -/
def Fits (cap : ℕ) (q : Queue T) (room : ℕ) : Prop := q.tail.moves + room ≤ q.head.moves + cap + 1

/-- the claimed items from `start` on -/
structure Robs (q : Queue T) (start : Count) (count : ℕ) : Prop where
  ok : start.Ok
  pos : 0 < count
  head : start.moves = q.head.moves
  booked : start.moves + count = q.booked.moves

def PcOk (cap : ℕ) (queue : ℕ → Queue T) (hand : List T) (i : ℕ) : Pc T → Prop
  | .idle => hand = []
  | .pushFull _ => hand = []
  | .pushWrite _ => hand = [] ∧ (queue i).tail.moves < (queue i).head.moves + cap
  | .pushStore _ => hand = [] ∧ (queue i).tail.moves < (queue i).head.moves + cap
  | .popLoad => hand = []
  | .popCas tail pop booked =>
    hand = [] ∧ tail = (queue i).tail ∧ pop = (queue i).popCount ∧ booked.Ok ∧ booked.moves ≤ (queue i).booked.moves ∧
      booked.moves < tail.moves ∧ tail.moves ≤ booked.moves + cap
  | .popRead tail => (∃ x, hand = [x]) ∧ tail.Ok ∧ tail.moves = (queue i).tail.moves + 1 ∧ tail.moves ≤ (queue i).head.moves + cap
  | .likelyPush j => i ≠ j ∧ hand = []
  | .likelyHead j push => i ≠ j ∧ hand = [] ∧ push.Ok ∧ push.moves ≤ (queue j).pushCount.moves
  | .room j => i ≠ j ∧ hand = []
  | .bookLoad j room => i ≠ j ∧ hand = [] ∧ Fits cap (queue i) room
  | .bookHead j room pop booked => i ≠ j ∧ hand = [] ∧ Fits cap (queue i) room ∧ Seen cap (queue j) pop booked
  | .bookPush j room old pop booked =>
    i ≠ j ∧ hand = [] ∧ Fits cap (queue i) room ∧ Seen cap (queue j) pop booked ∧ old.Ok ∧ old.moves = booked.moves ∧
      old.moves ≤ (queue j).head.moves
  | .bookCas j room old pop booked count =>
    i ≠ j ∧ hand = [] ∧ Fits cap (queue i) room ∧ Seen cap (queue j) pop booked ∧ (old.Ok ∧ old.moves = booked.moves ∧
      old.moves ≤ (queue j).head.moves) ∧ 0 < count ∧ count ≤ room ∧
      (pop.moves = (queue j).popCount.moves → booked.moves = (queue j).booked.moves → booked.moves + count ≤ (queue j).tail.moves)
  | .move j start count k => i ≠ j ∧ hand.length = count ∧ k < count ∧ Robs (queue j) start count ∧ Fits cap (queue i) count
  | .landPush j start count x =>
    i ≠ j ∧ (∃ xs, hand = xs ++ [x] ∧ xs.length + 1 = count) ∧ Robs (queue j) start count ∧ Fits cap (queue i) count
  | .landHead j start count x => i ≠ j ∧ hand = [x] ∧ Robs (queue j) start count

namespace St

/-- what the slots of a deque hold, from its head on -/
def content (s : St T) (j : ℕ) : List (Option T) :=
  ((s.thief j).elim [] fun i => (s.pc i).left (s.hand i)) ++ (s.items j).map some ++ ((s.pc j).ahead (s.hand j)).map some

def spec (s : St T) : Spec T := ⟨s.items, s.hand, fun j => (s.queue j).booked.moves - (s.queue j).head.moves⟩

end St

structure Inv (cap : ℕ) (s : St T) : Prop where
  queues : ∀ j, QueueOk cap (s.queue j) (s.items j)
  window : ∀ j, Window cap (s.queue j).head.moves (s.queue j).buffer (s.content j)
  thieves : ∀ i j, s.thief j = some i ↔ (s.pc i).robs = some j
  calm : ∀ j, s.thief j = none → (s.queue j).head.moves = (s.queue j).booked.moves
  pcs : ∀ i, PcOk cap s.queue (s.hand i) i (s.pc i)
  accepted : Accepts cap s.log s.spec
  sound : s.fault = false

/-- between a thief's loads and its exchange the counters do not come round -/
def Timely (cap : ℕ) (s : St T) : Prop :=
  ∀ i, match s.pc i with
    | .bookHead j _ pop booked =>
      (s.queue j).popCount.moves + (s.queue j).booked.moves + cap < pop.moves + booked.moves + short
    | .bookPush j _ _ pop booked =>
      (s.queue j).popCount.moves + (s.queue j).booked.moves + cap < pop.moves + booked.moves + short
    | .bookCas j _ _ pop booked _ =>
      (s.queue j).popCount.moves + (s.queue j).booked.moves + cap < pop.moves + booked.moves + short
    | _ => True

section Invariant

variable {cap i j : ℕ} {s s' : St T}

theorem init_inv : Inv cap (init : St T) where
  queues j := ⟨rfl, rfl, rfl, rfl, le_rfl, le_rfl, rfl, Nat.zero_le _⟩
  window j := window_empty cap 0
  thieves i j := by simp [init, Pc.robs]
  calm j _ := rfl
  pcs i := rfl
  accepted := .nil
  sound := rfl

/-! ## Other workers -/

/-- the counters of a deque go up -/
structure Grew (q q' : Queue T) : Prop where
  push : q.pushCount.moves ≤ q'.pushCount.moves
  pop : q.popCount.moves ≤ q'.popCount.moves
  booked : q.booked.moves ≤ q'.booked.moves
  head : q.head.moves ≤ q'.head.moves

theorem Grew.refl (q : Queue T) : Grew q q := ⟨le_rfl, le_rfl, le_rfl, le_rfl⟩

theorem Seen.grew {q q' : Queue T} {pop booked : Count} (h : Seen cap q pop booked) (hg : Grew q q') : Seen cap q' pop booked :=
  ⟨h.pop_ok, h.booked_ok, h.pop_le.trans hg.pop, h.booked_le.trans hg.booked, h.near.trans (Nat.add_le_add_right hg.head cap)⟩

/-- what a worker knows stays true while the others work -/
theorem PcOk.stays {queue queue' : ℕ → Queue T} {hand : List T} {pc : Pc T} (h : PcOk cap queue hand i pc)
    (hgrew : ∀ j, Grew (queue j) (queue' j)) (hpush : (queue' i).pushCount = (queue i).pushCount)
    (hpop : (queue' i).popCount = (queue i).popCount)
    (hrobs : ∀ j, pc.robs = some j → (queue' j).head = (queue j).head ∧ (queue' j).booked = (queue j).booked) :
    PcOk cap queue' hand i pc := by
  have htail : (queue' i).tail = (queue i).tail := by rw [Queue.tail, Queue.tail, hpush, hpop]
  have hhead := (hgrew i).head
  have hfits : ∀ {room}, Fits cap (queue i) room → Fits cap (queue' i) room := by
    intro room hf
    unfold Fits at hf ⊢
    rw [htail]
    omega
  have hrob : ∀ {j start count}, pc.robs = some j → Robs (queue j) start count → Robs (queue' j) start count := by
    intro j start count hj hr
    obtain ⟨hh, hb⟩ := hrobs j hj
    exact ⟨hr.ok, hr.pos, by rw [hh]; exact hr.head, by rw [hb]; exact hr.booked⟩
  cases pc with
  | idle => exact h
  | pushFull x => exact h
  | pushWrite x => exact ⟨h.1, by rw [htail]; exact h.2.trans_le (Nat.add_le_add_right hhead cap)⟩
  | pushStore x => exact ⟨h.1, by rw [htail]; exact h.2.trans_le (Nat.add_le_add_right hhead cap)⟩
  | popLoad => exact h
  | popCas tail pop booked =>
    obtain ⟨hh, ht, hp, hok, hle, hlt, hcap⟩ := h
    exact ⟨hh, by rw [htail]; exact ht, by rw [hpop]; exact hp, hok, hle.trans (hgrew i).booked, hlt, hcap⟩
  | popRead tail =>
    obtain ⟨hh, hok, ht, hcap⟩ := h
    exact ⟨hh, hok, by rw [htail]; exact ht, hcap.trans (Nat.add_le_add_right hhead cap)⟩
  | likelyPush j => exact h
  | likelyHead j push => exact ⟨h.1, h.2.1, h.2.2.1, h.2.2.2.trans (hgrew j).push⟩
  | room j => exact h
  | bookLoad j room => exact ⟨h.1, h.2.1, hfits h.2.2⟩
  | bookHead j room pop booked => exact ⟨h.1, h.2.1, hfits h.2.2.1, h.2.2.2.grew (hgrew j)⟩
  | bookPush j room old pop booked =>
    obtain ⟨hne, hh, hf, hs, hok, heq, hle⟩ := h
    exact ⟨hne, hh, hfits hf, hs.grew (hgrew j), hok, heq, hle.trans (hgrew j).head⟩
  | bookCas j room old pop booked count =>
    obtain ⟨hne, hh, hf, hs, ⟨hok, heq, hle⟩, hpos, hroom, hcount⟩ := h
    refine ⟨hne, hh, hfits hf, hs.grew (hgrew j), ⟨hok, heq, hle.trans (hgrew j).head⟩, hpos, hroom, fun hpop' hbooked' => ?_⟩
    have hg := hgrew j
    have hpop₀ : pop.moves = (queue j).popCount.moves := le_antisymm hs.pop_le (hpop' ▸ hg.pop)
    have hbooked₀ : booked.moves = (queue j).booked.moves := le_antisymm hs.booked_le (hbooked' ▸ hg.booked)
    have hold := hcount hpop₀ hbooked₀
    have hpush' := hg.push
    simp only [Queue.tail, Count.sub] at hold ⊢
    omega
  | move j start count k =>
    obtain ⟨hne, hlen, hk, hr, hf⟩ := h
    exact ⟨hne, hlen, hk, hrob rfl hr, hfits hf⟩
  | landPush j start count x =>
    obtain ⟨hne, hxs, hr, hf⟩ := h
    exact ⟨hne, hxs, hrob rfl hr, hfits hf⟩
  | landHead j start count x =>
    obtain ⟨hne, hx, hr⟩ := h
    exact ⟨hne, hx, hrob rfl hr⟩

theorem content_same {k : ℕ} (hthief : s'.thief k = s.thief k) (hitems : s'.items k = s.items k)
    (hleft : ∀ u, s.thief k = some u → (s'.pc u).left (s'.hand u) = (s.pc u).left (s.hand u))
    (hahead : (s'.pc k).ahead (s'.hand k) = (s.pc k).ahead (s.hand k)) : s'.content k = s.content k := by
  unfold St.content
  rw [hthief, hitems, hahead]
  cases hk : s.thief k with
  | none => rfl
  | some u =>
    simp only [Option.elim_some]
    rw [hleft u hk]

/-- the slots a thief has not left yet are those between the head and what it has booked -/
theorem Inv.left_length (h : Inv cap s) (k : ℕ) :
    ((s.thief k).elim [] fun u => (s.pc u).left (s.hand u)).length = (s.queue k).booked.moves - (s.queue k).head.moves := by
  cases hk : s.thief k with
  | none => simp [h.calm k hk]
  | some u =>
    have hrobs := (h.thieves u k).1 hk
    have hok := h.pcs u
    simp only [Option.elim_some]
    generalize s.pc u = pc at hrobs hok
    cases pc with
    | move j start count m =>
      cases hrobs
      obtain ⟨-, hlen, hm, hr, -⟩ := hok
      have hhead := hr.head
      have hbooked := hr.booked
      simp only [Pc.left, List.length_append, List.length_replicate, List.length_map, List.length_drop]
      omega
    | landPush j start count x =>
      cases hrobs
      obtain ⟨-, -, hr, -⟩ := hok
      have hhead := hr.head
      have hbooked := hr.booked
      simp only [Pc.left, List.length_replicate]
      omega
    | landHead j start count x =>
      cases hrobs
      obtain ⟨-, -, hr⟩ := hok
      have hhead := hr.head
      have hbooked := hr.booked
      simp only [Pc.left, List.length_replicate]
      omega
    | _ => cases hrobs

/-- worker `i` takes a step; of the other deques it may touch that of `j` -/
theorem Inv.next (h : Inv cap s) (hij : i ≠ j) (hpcs : ∀ u, u ≠ i → s'.pc u = s.pc u ∧ s'.hand u = s.hand u)
    (hrest : ∀ k, k ≠ i → k ≠ j → s'.queue k = s.queue k ∧ s'.items k = s.items k)
    (hthief : ∀ k, k ≠ j → s'.thief k = s.thief k) (hrobs : ∀ k, (s.pc i).robs = some k → k = j)
    (hrobs' : ∀ k, (s'.pc i).robs = some k → k = j) (hrob : s'.thief j = some i ↔ (s'.pc i).robs = some j)
    (hkeep : ∀ u, u ≠ i → (s'.thief j = some u ↔ s.thief j = some u))
    (hstay : ∀ u, u ≠ i → s.thief j = some u → (s'.queue j).head = (s.queue j).head ∧ (s'.queue j).booked = (s.queue j).booked)
    (hqi : QueueOk cap (s'.queue i) (s'.items i)) (hqj : QueueOk cap (s'.queue j) (s'.items j))
    (hgi : Grew (s.queue i) (s'.queue i)) (hgj : Grew (s.queue j) (s'.queue j))
    (hhead : (s'.queue i).head = (s.queue i).head ∧ (s'.queue i).booked = (s.queue i).booked)
    (hcounts : (s'.queue j).pushCount = (s.queue j).pushCount ∧ (s'.queue j).popCount = (s.queue j).popCount)
    (hcalm : s'.thief j = none → (s'.queue j).head.moves = (s'.queue j).booked.moves)
    (hwi : Window cap (s'.queue i).head.moves (s'.queue i).buffer (s'.content i))
    (hwj : Window cap (s'.queue j).head.moves (s'.queue j).buffer (s'.content j))
    (hok : PcOk cap s'.queue (s'.hand i) i (s'.pc i)) (haccepted : Accepts cap s'.log s'.spec) (hsound : s'.fault = false) :
    Inv cap s' where
  queues k := by
    by_cases hki : k = i
    · rw [hki]
      exact hqi
    · by_cases hkj : k = j
      · rw [hkj]
        exact hqj
      · rw [(hrest k hki hkj).1, (hrest k hki hkj).2]
        exact h.queues k
  window k := by
    by_cases hki : k = i
    · rw [hki]
      exact hwi
    · by_cases hkj : k = j
      · rw [hkj]
        exact hwj
      · have hsame : s'.content k = s.content k := by
          refine content_same (hthief k hkj) (hrest k hki hkj).2 (fun u hu => ?_) (by rw [(hpcs k hki).1, (hpcs k hki).2])
          have hui : u ≠ i := by
            rintro rfl
            exact hkj (hrobs k ((h.thieves u k).1 hu))
          rw [(hpcs u hui).1, (hpcs u hui).2]
        rw [hsame, (hrest k hki hkj).1]
        exact h.window k
  thieves u k := by
    by_cases hkj : k = j
    · subst hkj
      by_cases hu : u = i
      · rw [hu]
        exact hrob
      · rw [hkeep u hu, (hpcs u hu).1]
        exact h.thieves u k
    · rw [hthief k hkj]
      by_cases hu : u = i
      · rw [hu]
        exact iff_of_false (fun hk => hkj (hrobs k ((h.thieves i k).1 hk))) fun hk => hkj (hrobs' k hk)
      · rw [(hpcs u hu).1]
        exact h.thieves u k
  calm k hk := by
    by_cases hkj : k = j
    · subst hkj
      exact hcalm hk
    · rw [hthief k hkj] at hk
      by_cases hki : k = i
      · subst hki
        rw [hhead.1, hhead.2]
        exact h.calm k hk
      · rw [(hrest k hki hkj).1]
        exact h.calm k hk
  pcs u := by
    by_cases hu : u = i
    · rw [hu]
      exact hok
    · rw [(hpcs u hu).1, (hpcs u hu).2]
      have hgrew : ∀ k, Grew (s.queue k) (s'.queue k) := by
        intro k
        by_cases hki : k = i
        · rw [hki]
          exact hgi
        · by_cases hkj : k = j
          · rw [hkj]
            exact hgj
          · rw [(hrest k hki hkj).1]
            exact Grew.refl _
      have hown : (s'.queue u).pushCount = (s.queue u).pushCount ∧ (s'.queue u).popCount = (s.queue u).popCount := by
        by_cases huj : u = j
        · rw [huj]
          exact hcounts
        · rw [(hrest u hu huj).1]
          exact ⟨rfl, rfl⟩
      refine (h.pcs u).stays hgrew hown.1 hown.2 fun k hk => ?_
      by_cases hkj : k = j
      · subst hkj
        exact hstay u hu ((h.thieves u k).2 hk)
      · by_cases hki : k = i
        · rw [hki]
          exact hhead
        · rw [(hrest k hki hkj).1]
          exact ⟨rfl, rfl⟩
  accepted := haccepted
  sound := hsound

theorem goto_self (s : St T) (i : ℕ) (pc : Pc T) : (s.goto i pc).pc i = pc := Function.update_self _ _ _

theorem goto_other (s : St T) {i u : ℕ} (h : u ≠ i) (pc : Pc T) : (s.goto i pc).pc u = s.pc u := Function.update_of_ne h _ _

/-- worker `i` goes on without touching a deque -/
theorem Inv.goto (h : Inv cap s) {pc : Pc T} (hleft : pc.left (s.hand i) = (s.pc i).left (s.hand i))
    (hahead : pc.ahead (s.hand i) = (s.pc i).ahead (s.hand i)) (hrobs : pc.robs = (s.pc i).robs)
    (hok : PcOk cap s.queue (s.hand i) i pc) : Inv cap (s.goto i pc) where
  queues := h.queues
  window k := by
    have hsame : (s.goto i pc).content k = s.content k := by
      refine content_same rfl rfl (fun u _ => ?_) ?_
      · by_cases hu : u = i
        · rw [hu, goto_self]
          exact hleft
        · rw [goto_other s hu]
          rfl
      · by_cases hk : k = i
        · rw [hk, goto_self]
          exact hahead
        · rw [goto_other s hk]
          rfl
    rw [hsame]
    exact h.window k
  thieves u k := by
    by_cases hu : u = i
    · rw [hu, goto_self, hrobs]
      exact h.thieves i k
    · rw [goto_other s hu]
      exact h.thieves u k
  calm := h.calm
  pcs u := by
    by_cases hu : u = i
    · rw [hu, goto_self]
      exact hok
    · rw [goto_other s hu]
      exact h.pcs u
  accepted := h.accepted
  sound := h.sound

theorem Inv.note (h : Inv cap s) {e : Event T} (he : Allows cap s.spec e s.spec) : Inv cap (s.note e) where
  queues := h.queues
  window := h.window
  thieves := h.thieves
  calm := h.calm
  pcs := h.pcs
  accepted := .snoc h.accepted he
  sound := h.sound

theorem Inv.robs_ne (h : Inv cap s) (hj : (s.pc i).robs = some j) : i ≠ j := by
  have hok := h.pcs i
  generalize s.pc i = pc at hj hok
  cases pc with
  | move => cases hj; exact hok.1
  | landPush => cases hj; exact hok.1
  | landHead => cases hj; exact hok.1
  | _ => cases hj

/-! ## The own deque -/

/-- worker `i` changes its own deque, behind the head -/
theorem Inv.own (h : Inv cap s) {q : Queue T} {l m : List T} {pc : Pc T} {log : List (Event T)} (hrobs : pc.robs = (s.pc i).robs)
    (hleft : pc.left m = (s.pc i).left (s.hand i)) (hhead : q.head = (s.queue i).head) (hbooked : q.booked = (s.queue i).booked)
    (hpush : (s.queue i).pushCount.moves ≤ q.pushCount.moves) (hpop : (s.queue i).popCount.moves ≤ q.popCount.moves)
    (hq : QueueOk cap q l)
    (hwindow : ∀ L : List (Option T), L.length = (s.queue i).booked.moves - (s.queue i).head.moves →
      Window cap (s.queue i).head.moves (s.queue i).buffer (L ++ (s.items i).map some ++ ((s.pc i).ahead (s.hand i)).map some) →
      Window cap (s.queue i).head.moves q.buffer (L ++ l.map some ++ (pc.ahead m).map some))
    (hok : PcOk cap (Function.update s.queue i q) m i pc)
    (haccepted : Accepts cap log ⟨Function.update s.items i l, Function.update s.hand i m, s.spec.busy⟩) :
    Inv cap ⟨Function.update s.queue i q, Function.update s.pc i pc, Function.update s.items i l, Function.update s.hand i m,
      s.thief, log, false⟩ := by
  obtain ⟨j, hij, hj⟩ : ∃ j, i ≠ j ∧ ∀ k, (s.pc i).robs = some k → k = j := by
    cases hr : (s.pc i).robs with
    | none => exact ⟨i + 1, Nat.ne_of_lt (Nat.lt_succ_self i), (fun k hk => by cases hk)⟩
    | some j => exact ⟨j, h.robs_ne hr, fun k hk => (Option.some.inj hk).symm⟩
  have hji : j ≠ i := hij.symm
  -- the slots a thief of `i` has not left are as they were
  have hthief : ∀ u, s.thief i = some u → u ≠ i := by
    rintro u hu rfl
    exact h.robs_ne ((h.thieves u u).1 hu) rfl
  refine h.next hij ?_ ?_ (fun _ _ => rfl) hj ?_ ?_ (fun _ _ => Iff.rfl) ?_ ?_ ?_ ?_ ?_ ?_ ?_ ?_ ?_ ?_ ?_ ?_ rfl
  · exact fun u hu => ⟨Function.update_of_ne hu _ _, Function.update_of_ne hu _ _⟩
  · exact fun k hk _ => ⟨Function.update_of_ne hk _ _, Function.update_of_ne hk _ _⟩
  · intro k hk
    simp only [Function.update_self] at hk
    exact hj k (hrobs ▸ hk)
  · simp only [Function.update_self, hrobs]
    exact h.thieves i j
  · intro u _ _
    simp only [Function.update_of_ne hji, and_self]
  · simpa only [Function.update_self] using hq
  · simpa only [Function.update_of_ne hji] using h.queues j
  · simp only [Function.update_self]
    exact ⟨hpush, hpop, hbooked ▸ le_rfl, hhead ▸ le_rfl⟩
  · simp only [Function.update_of_ne hji]
    exact Grew.refl _
  · simp only [Function.update_self]
    exact ⟨hhead, hbooked⟩
  · simp only [Function.update_of_ne hji, and_self]
  · simp only [Function.update_of_ne hji]
    exact h.calm j
  · have hw := hwindow _ (h.left_length i) (h.window i)
    simp only [Function.update_self, St.content, hhead]
    cases hu : s.thief i with
    | none =>
      rw [hu] at hw
      exact hw
    | some u =>
      rw [hu] at hw
      simp only [Option.elim_some, Function.update_of_ne (hthief u hu)] at hw ⊢
      exact hw
  · have hsame : St.content ⟨Function.update s.queue i q, Function.update s.pc i pc, Function.update s.items i l,
        Function.update s.hand i m, s.thief, log, false⟩ j = s.content j := by
      refine content_same rfl (Function.update_of_ne hji _ _) (fun u _ => ?_) ?_
      · by_cases hu : u = i
        · subst hu
          simp only [Function.update_self]
          exact hleft
        · simp only [Function.update_of_ne hu]
      · simp only [Function.update_of_ne hji]
    simp only [hsame, Function.update_of_ne hji]
    exact h.window j
  · simpa only [Function.update_self] using hok
  · have hbusy : (fun k => (Function.update s.queue i q k).booked.moves - (Function.update s.queue i q k).head.moves) = s.spec.busy := by
      funext k
      by_cases hk : k = i
      · subst hk
        simp only [Function.update_self, St.spec, hhead, hbooked]
      · simp only [Function.update_of_ne hk, St.spec]
    simp only [St.spec, hbusy]
    exact haccepted

end Invariant

end YouPipe.Lifo
