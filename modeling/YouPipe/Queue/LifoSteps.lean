/-
One step of a worker keeps the invariant of the deques.
-/
import Mathlib.Tactic
import YouPipe.Core.Window
import YouPipe.Core.Deques
import YouPipe.Queue.Lifo
import YouPipe.Queue.LifoInv

namespace YouPipe.Lifo

open YouPipe.Ring YouPipe.Deques

variable {T : Type} {cap i j : ℕ} {s s' : St T}

/-! ## What the words say -/

namespace QueueOk

variable {q : Queue T} {items : List T}

theorem tail_ok (h : QueueOk cap q items) : q.tail.Ok := h.push.sub h.pop h.pops

theorem head_le_tail (h : QueueOk cap q items) : q.head.moves ≤ q.tail.moves := by
  have hlen := h.length
  have hle := h.head_le
  omega

/-- the places in use, with those a thief still reads -/
theorem used (h : QueueOk cap q items) (hlt : cap < short) :
    q.tail.dist q.head = items.length + (q.booked.moves - q.head.moves) := by
  have hlen := h.length
  have hle := h.head_le
  have hroom := h.room
  rw [h.tail_ok.dist_eq h.head h.head_le_tail (by omega)]
  omega

/-- the end of the items is at `tail` -/
theorem end_moves (h : QueueOk cap q items) {L : List (Option T)} (hL : L.length = q.booked.moves - q.head.moves) :
    q.head.moves + (L ++ items.map some).length = q.tail.moves := by
  have hlen := h.length
  have hle := h.head_le
  rw [List.length_append, List.length_map, hL]
  omega

end QueueOk

theorem Inv.pc_ok (h : Inv cap s) {pc : Pc T} (hpc : s.pc i = pc) : PcOk cap s.queue (s.hand i) i pc := hpc ▸ h.pcs i

/-! ## Steps of the owner -/

theorem pushFull_inv (h : Inv cap s) (hpos : 0 < cap) (hlt : cap < short) {x : T} {spurious : Bool} (hpc : s.pc i = .pushFull x)
    (hstep : ownStep cap s i spurious (s.pc i) = some s') : Inv cap s' := by
  have hq := h.queues i
  have hhand : s.hand i = [] := h.pc_ok hpc
  have hused := hq.used hlt
  rw [hpc] at hstep
  simp only [ownStep] at hstep
  split at hstep
  · cases hstep
    have hidle : Inv cap (s.goto i .idle) := h.goto (by rw [hpc]; rfl) (by rw [hpc]; rfl) (by rw [hpc]; rfl) hhand
    refine hidle.note (.full _ i ?_)
    simp only [St.spec, St.goto]
    omega
  · cases hstep
    refine h.goto (by rw [hpc]; rfl) ?_ (by rw [hpc]; rfl) ⟨hhand, ?_⟩
    · rw [hpc]
      rfl
    · have hlen := hq.length
      have hle := hq.head_le
      omega

/-- a step that only changes the slots of the own deque -/
theorem pushWrite_inv (h : Inv cap s) (hcap : cap ∣ short) {x : T} {spurious : Bool} (hpc : s.pc i = .pushWrite x)
    (hstep : ownStep cap s i spurious (s.pc i) = some s') : Inv cap s' := by
  have hq := h.queues i
  obtain ⟨hhand, hroom⟩ := h.pc_ok hpc
  have hslot := hq.tail_ok.slot_zero hcap
  -- the slot of the end is free
  have hfree : (s.queue i).buffer ((s.queue i).tail.word % cap) = none := by
    have hw := h.window i
    have hend := hq.end_moves (h.left_length i)
    simp only [St.content, hpc, Pc.ahead, List.map_nil, List.append_nil] at hw
    rw [hslot, ← hend]
    exact hw.next (by omega)
  rw [hpc] at hstep
  cases hstep
  have hs : (s.writeAt cap i (s.queue i).tail.word x).goto i (.pushStore x) =
      ⟨Function.update s.queue i { s.queue i with
          buffer := Function.update (s.queue i).buffer ((s.queue i).tail.word % cap) (some x) },
        Function.update s.pc i (.pushStore x), Function.update s.items i (s.items i), Function.update s.hand i (s.hand i), s.thief,
        s.log, false⟩ := by
    simp only [St.goto, St.writeAt, St.setQueue, hfree, h.sound, Option.isSome_none, Bool.or_false, Function.update_eq_self]
  rw [hs]
  refine h.own (by rw [hpc]; rfl) (by rw [hpc]; rfl) rfl rfl le_rfl le_rfl
    ⟨hq.push, hq.pop, hq.booked, hq.head, hq.pops, hq.head_le, hq.length, hq.room⟩ ?_ ?_ ?_
  · intro L hL hw
    have hend := hq.end_moves hL
    simp only [hpc, Pc.ahead, List.map_nil, List.append_nil] at hw
    have hpush := hw.push (by omega) (some x)
    rw [hend, ← hslot] at hpush
    exact hpush
  · refine ⟨hhand, ?_⟩
    rw [Function.update_self]
    exact hroom
  · simp only [Function.update_eq_self]
    exact h.accepted

theorem pushStore_inv (h : Inv cap s) {x : T} {spurious : Bool} (hpc : s.pc i = .pushStore x)
    (hstep : ownStep cap s i spurious (s.pc i) = some s') : Inv cap s' := by
  have hq := h.queues i
  obtain ⟨hhand, hroom⟩ := h.pc_ok hpc
  rw [hpc] at hstep
  cases hstep
  have hs : (((s.setQueue i { s.queue i with pushCount := (s.queue i).pushCount.add 1 }).setItems i (s.items i ++ [x])).goto i
      .idle).note (.push i x) =
      ⟨Function.update s.queue i { s.queue i with pushCount := (s.queue i).pushCount.add 1 }, Function.update s.pc i .idle,
        Function.update s.items i (s.items i ++ [x]), Function.update s.hand i (s.hand i), s.thief, s.log ++ [.push i x], false⟩ := by
    simp only [St.goto, St.note, St.setItems, St.setQueue, h.sound, Function.update_eq_self]
  have htail : (s.queue i).tail.moves = (s.queue i).pushCount.moves - (s.queue i).popCount.moves := rfl
  have hlen := hq.length
  have hpops := hq.pops
  have hle := hq.head_le
  rw [hs]
  refine h.own (by rw [hpc]; rfl) (by rw [hpc]; rfl) rfl rfl (Nat.le_succ _) le_rfl
    ⟨hq.push.add 1, hq.pop, hq.booked, hq.head, hpops.trans (Nat.le_succ _), hle, ?_, ?_⟩ ?_ hhand ?_
  · simp only [Queue.tail, Count.sub, Count.add, List.length_append, List.length_singleton]
    omega
  · simp only [Queue.tail, Count.sub, Count.add]
    omega
  · intro L _ hw
    simpa only [hpc, Pc.ahead, List.map_append, List.map_nil, List.append_nil, List.append_assoc] using hw
  · refine .snoc h.accepted ?_
    have he : Allows cap s.spec (.push i x) _ := .push s.spec i x (by simp only [St.spec]; omega)
    simpa only [St.spec, Function.update_eq_self] using he

/-- the loop of `pop` goes on with a head that may be old -/
theorem popNext_inv (h : Inv cap s) (hlt : cap < short) (hhand : s.hand i = []) (hleft : (s.pc i).left (s.hand i) = [])
    (hahead : (s.pc i).ahead (s.hand i) = []) (hrobs : (s.pc i).robs = none) :
    Inv cap (popNext s i (s.queue i).tail (s.queue i).popCount (s.queue i).booked) := by
  have hq := h.queues i
  have hlen := hq.length
  have hroom := hq.room
  have hle := hq.head_le
  unfold popNext
  split
  · rename_i hword
    have hidle : Inv cap (s.goto i .idle) := h.goto (by rw [hleft]; rfl) (by rw [hahead]; rfl) (by rw [hrobs]; rfl) hhand
    have heq := hq.tail_ok.inj hq.booked hword (by omega) (by omega)
    have hnil : s.items i = [] := List.eq_nil_of_length_eq_zero (by omega)
    exact hidle.note (.empty _ i hnil)
  · rename_i hword
    refine h.goto (by rw [hleft]; rfl) (by rw [hahead]; rfl) (by rw [hrobs]; rfl) ⟨hhand, rfl, rfl, hq.booked, le_rfl, ?_, by omega⟩
    have hne : (s.queue i).tail.moves ≠ (s.queue i).booked.moves := by
      intro heq
      have ht := hq.tail_ok
      have hb := hq.booked
      exact hword (by rw [ht, hb, heq])
    omega

theorem popLoad_inv (h : Inv cap s) (hlt : cap < short) {spurious : Bool} (hpc : s.pc i = .popLoad)
    (hstep : ownStep cap s i spurious (s.pc i) = some s') : Inv cap s' := by
  have hhand : s.hand i = [] := h.pc_ok hpc
  rw [hpc] at hstep
  cases hstep
  exact popNext_inv h hlt hhand (by rw [hpc]; rfl) (by rw [hpc]; rfl) (by rw [hpc]; rfl)

theorem popCas_inv (h : Inv cap s) (hlt : cap < short) {tail pop booked : Count} {spurious : Bool} (hpc : s.pc i = .popCas tail pop booked)
    (hstep : ownStep cap s i spurious (s.pc i) = some s') : Inv cap s' := by
  have hq := h.queues i
  obtain ⟨hhand, rfl, rfl, hok, hbooked, hsome, hnear⟩ := h.pc_ok hpc
  rw [hpc] at hstep
  simp only [ownStep] at hstep
  split at hstep
  · rename_i hcond
    have hlen := hq.length
    have hle := hq.head_le
    have hroom := hq.room
    have hpops := hq.pops
    have htail : (s.queue i).tail.moves = (s.queue i).pushCount.moves - (s.queue i).popCount.moves := rfl
    -- the word is that of the booked position, so no item was stolen in between
    have hsame := hq.booked.inj hok hcond.2.1 (by omega) (by omega)
    obtain ⟨rest, x, hitems⟩ : ∃ rest x, s.items i = rest ++ [x] := by
      refine (List.eq_nil_or_concat' (s.items i)).resolve_left fun hnil => ?_
      rw [hnil, List.length_nil] at hlen
      omega
    rw [hitems, List.length_append, List.length_singleton] at hlen
    simp only [hitems, List.dropLast_concat, List.getLast?_concat] at hstep
    cases hstep
    have hs : ((((s.setQueue i { s.queue i with popCount := (s.queue i).popCount.add 1 }).setItems i rest).goto i
        (.popRead (s.queue i).tail)).setHand i [x]).note (.pop i x) =
        ⟨Function.update s.queue i { s.queue i with popCount := (s.queue i).popCount.add 1 },
          Function.update s.pc i (.popRead (s.queue i).tail), Function.update s.items i rest, Function.update s.hand i [x], s.thief,
          s.log ++ [.pop i x], false⟩ := by
      simp only [St.goto, St.note, St.setItems, St.setHand, St.setQueue, h.sound]
    rw [hs]
    refine h.own (by rw [hpc]; rfl) (by rw [hpc]; rfl) rfl rfl le_rfl (Nat.le_succ _)
      ⟨hq.push, hq.pop.add 1, hq.booked, hq.head, ?_, hle, ?_, ?_⟩ ?_ ⟨⟨x, rfl⟩, hq.tail_ok, ?_, ?_⟩ ?_
    · simp only [Count.add]
      omega
    · simp only [Queue.tail, Count.sub, Count.add]
      omega
    · simp only [Queue.tail, Count.sub, Count.add]
      omega
    · intro L _ hw
      simpa only [hpc, hitems, Pc.ahead, List.map_append, List.map_cons, List.map_nil, List.append_nil, List.append_assoc] using hw
    · simp only [Function.update_self, Queue.tail, Count.sub, Count.add]
      omega
    · simp only [Function.update_self]
      exact hroom
    · exact .snoc h.accepted (.pop s.spec i x rest hitems hhand)
  · cases hstep
    exact popNext_inv h hlt hhand (by rw [hpc]; rfl) (by rw [hpc]; rfl) (by rw [hpc]; rfl)

theorem popRead_inv (h : Inv cap s) (hcap : cap ∣ short) {tail : Count} {spurious : Bool} (hpc : s.pc i = .popRead tail)
    (hstep : ownStep cap s i spurious (s.pc i) = some s') : Inv cap s' := by
  have hq := h.queues i
  obtain ⟨⟨x, hhand⟩, hok, hmoves, hroom⟩ := h.pc_ok hpc
  have hslot : (tail.word + short - 1) % short % cap = (s.queue i).tail.moves % cap := by
    rw [hok.slot_pred hcap (by omega), hmoves, Nat.add_sub_cancel]
  have hread : (s.queue i).buffer ((tail.word + short - 1) % short % cap) = some x := by
    have hw := h.window i
    have hend := hq.end_moves (h.left_length i)
    simp only [St.content, hpc, Pc.ahead, hhand, List.map_cons, List.map_nil] at hw
    rw [hslot, ← hend]
    exact hw.get (by omega) List.getElem?_concat_length
  rw [hpc] at hstep
  simp only [ownStep, hread] at hstep
  cases hstep
  have hs : (((s.takeAt cap i ((tail.word + short - 1) % short)).setHand i []).goto i .idle).note (.got i x) =
      ⟨Function.update s.queue i { s.queue i with
          buffer := Function.update (s.queue i).buffer ((tail.word + short - 1) % short % cap) none },
        Function.update s.pc i .idle, Function.update s.items i (s.items i), Function.update s.hand i [], s.thief,
        s.log ++ [.got i x], false⟩ := by
    simp only [St.goto, St.note, St.takeAt, St.setQueue, St.setHand, h.sound, Function.update_eq_self]
  rw [hs]
  refine h.own (by rw [hpc]; rfl) (by rw [hpc]; rfl) rfl rfl le_rfl le_rfl
    ⟨hq.push, hq.pop, hq.booked, hq.head, hq.pops, hq.head_le, hq.length, hq.room⟩ ?_ rfl ?_
  · intro L hL hw
    have hend := hq.end_moves hL
    simp only [hpc, Pc.ahead, hhand, List.map_cons, List.map_nil] at hw
    have hpop := hw.pop (by omega)
    rw [hend, ← hslot] at hpop
    simpa only [Pc.ahead, List.map_nil, List.append_nil] using hpop
  · refine .snoc h.accepted ?_
    have he : Allows cap s.spec (.got i x) _ := .got s.spec i x hhand
    simpa only [St.spec, Function.update_eq_self] using he

theorem ownStep_inv (h : Inv cap s) (hcap : cap ∣ short) (hpos : 0 < cap) (hlt : cap < short) {spurious : Bool}
    (hstep : ownStep cap s i spurious (s.pc i) = some s') : Inv cap s' := by
  cases hpc : s.pc i with
  | pushFull x => exact pushFull_inv h hpos hlt hpc hstep
  | pushWrite x => exact pushWrite_inv h hcap hpc hstep
  | pushStore x => exact pushStore_inv h hpc hstep
  | popLoad => exact popLoad_inv h hlt hpc hstep
  | popCas tail pop booked => exact popCas_inv h hlt hpc hstep
  | popRead tail => exact popRead_inv h hcap hpc hstep
  | _ => simp only [hpc, ownStep, reduceCtorEq] at hstep

/-! ## Looking at another deque -/

theorem likelyPush_inv (h : Inv cap s) {want : ℕ} {spurious : Bool} (hpc : s.pc i = .likelyPush j)
    (hstep : thiefStep cap s i want spurious (s.pc i) = some s') : Inv cap s' := by
  obtain ⟨hne, hhand⟩ := h.pc_ok hpc
  rw [hpc] at hstep
  cases hstep
  exact h.goto (by rw [hpc]; rfl) (by rw [hpc]; rfl) (by rw [hpc]; rfl) ⟨hne, hhand, (h.queues j).push, le_rfl⟩

theorem likelyHead_inv (h : Inv cap s) {push : Count} {want : ℕ} {spurious : Bool} (hpc : s.pc i = .likelyHead j push)
    (hstep : thiefStep cap s i want spurious (s.pc i) = some s') : Inv cap s' := by
  obtain ⟨hne, hhand, -, -⟩ := h.pc_ok hpc
  rw [hpc] at hstep
  simp only [thiefStep] at hstep
  split at hstep
  · cases hstep
    exact h.goto (by rw [hpc]; rfl) (by rw [hpc]; rfl) (by rw [hpc]; rfl) hhand
  · cases hstep
    exact h.goto (by rw [hpc]; rfl) (by rw [hpc]; rfl) (by rw [hpc]; rfl) ⟨hne, hhand⟩

/-- what the own deque has room for -/
theorem room_inv (h : Inv cap s) (hlt : cap < short) {want : ℕ} {spurious : Bool} (hpc : s.pc i = .room j)
    (hstep : thiefStep cap s i want spurious (s.pc i) = some s') : Inv cap s' := by
  obtain ⟨hne, hhand⟩ := h.pc_ok hpc
  have hq := h.queues i
  have hused := hq.used hlt
  have hlen := hq.length
  have hle := hq.head_le
  have hroom := hq.room
  have hfits : Fits cap (s.queue i) (cap - (s.queue i).tail.dist (s.queue i).head + 1) := by
    unfold Fits
    omega
  rw [hpc] at hstep
  cases hstep
  exact h.goto (by rw [hpc]; rfl) (by rw [hpc]; rfl) (by rw [hpc]; rfl) ⟨hne, hhand, hfits⟩

theorem bookLoad_inv (h : Inv cap s) {room want : ℕ} {spurious : Bool} (hpc : s.pc i = .bookLoad j room)
    (hstep : thiefStep cap s i want spurious (s.pc i) = some s') : Inv cap s' := by
  obtain ⟨hne, hhand, hfits⟩ := h.pc_ok hpc
  have hq := h.queues j
  have hlen := hq.length
  have hroom := hq.room
  rw [hpc] at hstep
  cases hstep
  exact h.goto (by rw [hpc]; rfl) (by rw [hpc]; rfl) (by rw [hpc]; rfl)
    ⟨hne, hhand, hfits, hq.pop, hq.booked, le_rfl, le_rfl, by omega⟩

/-- the loop of `book_items` goes on with the old head -/
theorem bookNext_inv (h : Inv cap s) {room : ℕ} {old pop booked : Count} (hleft : (s.pc i).left (s.hand i) = [])
    (hahead : (s.pc i).ahead (s.hand i) = []) (hrobs : (s.pc i).robs = none) (hne : i ≠ j) (hhand : s.hand i = [])
    (hfits : Fits cap (s.queue i) room) (hseen : Seen cap (s.queue j) pop booked) (hold : old.Ok)
    (hle : old.moves ≤ (s.queue j).head.moves) (hlo : booked.moves < old.moves + short) (hhi : old.moves < booked.moves + short) :
    Inv cap (bookNext s i j room old pop booked) := by
  unfold bookNext
  split
  · rename_i hword
    exact h.goto (by rw [hleft]; rfl) (by rw [hahead]; rfl) (by rw [hrobs]; rfl)
      ⟨hne, hhand, hfits, hseen, hold, hold.inj hseen.booked_ok hword hhi hlo, hle⟩
  · exact h.goto (by rw [hleft]; rfl) (by rw [hahead]; rfl) (by rw [hrobs]; rfl) hhand

theorem bookHead_inv (h : Inv cap s) (hlt : cap < short) (htimely : Timely cap s) {want room : ℕ} {pop booked : Count} {spurious : Bool}
    (hpc : s.pc i = .bookHead j room pop booked) (hstep : thiefStep cap s i want spurious (s.pc i) = some s') : Inv cap s' := by
  have hq := h.queues j
  obtain ⟨hne, hhand, hfits, hseen⟩ := h.pc_ok hpc
  have htime := htimely i
  have hpop := hseen.pop_le
  have hnear := hseen.near
  have hle := hq.head_le
  rw [hpc] at hstep
  cases hstep
  simp only [hpc] at htime
  exact bookNext_inv h (by rw [hpc]; rfl) (by rw [hpc]; rfl) (by rw [hpc]; rfl) hne hhand hfits hseen hq.head le_rfl (by omega) (by omega)

theorem bookPush_inv (h : Inv cap s) (htimely : Timely cap s) {want room : ℕ} {old pop booked : Count} {spurious : Bool}
    (hpc : s.pc i = .bookPush j room old pop booked) (hstep : thiefStep cap s i want spurious (s.pc i) = some s') : Inv cap s' := by
  have hq := h.queues j
  obtain ⟨hne, hhand, hfits, hseen, hok, heq, hle⟩ := h.pc_ok hpc
  have htime := htimely i
  have htail : (s.queue j).tail.moves = (s.queue j).pushCount.moves - (s.queue j).popCount.moves := rfl
  have hpop := hseen.pop_le
  have hbooked := hseen.booked_le
  have hhead := hq.head_le
  have hpops := hq.pops
  have hlen := hq.length
  have hroom := hq.room
  simp only [hpc] at htime
  -- at least the items that are there; more if `pop` or `booked` is old
  have havailable : ((s.queue j).pushCount.sub pop).dist booked = (s.queue j).pushCount.moves - pop.moves - booked.moves := by
    have hpush : pop.moves ≤ (s.queue j).pushCount.moves := by omega
    rw [(hq.push.sub hseen.pop_ok hpush).dist_eq hseen.booked_ok (by simp only [Count.sub]; omega) (by simp only [Count.sub]; omega)]
    rfl
  have hidle : Inv cap (s.goto i .idle) := h.goto (by rw [hpc]; rfl) (by rw [hpc]; rfl) (by rw [hpc]; rfl) hhand
  rw [hpc] at hstep
  simp only [thiefStep] at hstep
  split at hstep
  · rename_i hnone
    cases hstep
    have hnil : s.items j = [] := List.eq_nil_of_length_eq_zero (by omega)
    exact hidle.note (.bare _ i j hnil)
  · split at hstep
    · cases hstep
      exact hidle
    · cases hstep
      refine h.goto (by rw [hpc]; rfl) (by rw [hpc]; rfl) (by rw [hpc]; rfl)
        ⟨hne, hhand, hfits, hseen, ⟨hok, heq, hle⟩, by omega, by omega, fun hp hb => ?_⟩
      omega

/-! ## Stealing -/

/-- the places a thief still reads -/
theorem busy_update (s : St T) (j : ℕ) (q : Queue T) :
    (fun k => (Function.update s.queue j q k).booked.moves - (Function.update s.queue j q k).head.moves) =
      Function.update s.spec.busy j (q.booked.moves - q.head.moves) := by
  funext k
  by_cases hk : k = j
  · subst hk
    simp only [Function.update_self]
  · simp only [Function.update_of_ne hk, St.spec]

theorem Inv.thief_ne (h : Inv cap s) {u : ℕ} (hu : s.thief i = some u) : u ≠ i := h.robs_ne ((h.thieves u i).1 hu)

theorem Inv.robbed (h : Inv cap s) {u : ℕ} (hu : s.thief j = some u) : ∃ start count, Robs (s.queue j) start count := by
  have hrobs := (h.thieves u j).1 hu
  have hok := h.pcs u
  generalize s.pc u = pc at hrobs hok
  cases pc with
  | move => cases hrobs; exact ⟨_, _, hok.2.2.2.1⟩
  | landPush => cases hrobs; exact ⟨_, _, hok.2.2.1⟩
  | landHead => cases hrobs; exact ⟨_, _, hok.2.2⟩
  | _ => cases hrobs

/-- a deque whose two heads agree has no thief -/
theorem Inv.no_thief (h : Inv cap s) (hcalm : (s.queue j).booked.moves = (s.queue j).head.moves) : s.thief j = none := by
  refine Option.eq_none_iff_forall_ne_some.2 fun u hu => ?_
  obtain ⟨start, count, hr⟩ := h.robbed hu
  have hhead := hr.head
  have hbooked := hr.booked
  have hpos := hr.pos
  omega

theorem bookCas_inv (h : Inv cap s) (htimely : Timely cap s) {want room count : ℕ} {old pop booked : Count}
    {spurious : Bool} (hpc : s.pc i = .bookCas j room old pop booked count)
    (hstep : thiefStep cap s i want spurious (s.pc i) = some s') : Inv cap s' := by
  have hq := h.queues j
  have hqi := h.queues i
  obtain ⟨hne, hhand, hfits, hseen, ⟨hok, heq, hle⟩, hpos, hroom, hcount⟩ := h.pc_ok hpc
  have htime := htimely i
  have hpop := hseen.pop_le
  have hbooked := hseen.booked_le
  have hhead := hq.head_le
  have hlen := hq.length
  have hnear := hq.room
  simp only [hpc] at htime
  rw [hpc] at hstep
  simp only [thiefStep] at hstep
  split at hstep
  · rename_i hcond
    cases hstep
    -- nothing was popped or stolen since
    have hsamePop := hq.pop.inj hseen.pop_ok hcond.1 (by omega) (by omega)
    have hsame := hq.booked.inj hseen.booked_ok hcond.2.1 (by omega) (by omega)
    have htake := hcount hsamePop.symm hsame.symm
    have hcalm : (s.queue j).booked.moves = (s.queue j).head.moves := by omega
    have hfree := h.no_thief hcalm
    have hji : j ≠ i := hne.symm
    have hs : (((((s.setQueue j { s.queue j with booked := (s.queue j).booked.add count }).setItems j ((s.items j).drop count)).setHand i
        ((s.items j).take count)).setThief j (some i)).goto i (.move j (s.queue j).booked count 0)).note
          (.book i j ((s.items j).take count)) =
        ⟨Function.update s.queue j { s.queue j with booked := (s.queue j).booked.add count },
          Function.update s.pc i (.move j (s.queue j).booked count 0), Function.update s.items j ((s.items j).drop count),
          Function.update s.hand i ((s.items j).take count), Function.update s.thief j (some i),
          s.log ++ [.book i j ((s.items j).take count)], false⟩ := by
      simp only [St.goto, St.note, St.setItems, St.setHand, St.setThief, St.setQueue, h.sound]
    have htakeLen : ((s.items j).take count).length = count := by
      rw [List.length_take]
      omega
    rw [hs]
    refine h.next hne ?_ ?_ ?_ ?_ ?_ ?_ ?_ ?_ ?_ ?_ ?_ ?_ ?_ ?_ ?_ ?_ ?_ ?_ ?_ rfl
    · exact fun u hu => ⟨Function.update_of_ne hu _ _, Function.update_of_ne hu _ _⟩
    · exact fun k _ hk => ⟨Function.update_of_ne hk _ _, Function.update_of_ne hk _ _⟩
    · exact fun k hk => Function.update_of_ne hk _ _
    · intro k hk
      rw [hpc] at hk
      cases hk
    · intro k hk
      simp only [Function.update_self] at hk
      exact (Option.some.inj hk).symm
    · simp only [Function.update_self, Pc.robs]
    · intro u hu
      simp only [Function.update_self, hfree]
      exact ⟨fun hi => absurd (Option.some.inj hi).symm hu, (fun hi => by cases hi)⟩
    · intro u _ hu
      rw [hfree] at hu
      cases hu
    · simpa only [Function.update_of_ne hne] using hqi
    · simp only [Function.update_self]
      refine ⟨hq.push, hq.pop, hq.booked.add count, hq.head, hq.pops, hhead.trans (Nat.le_add_right _ _), ?_, hnear⟩
      simp only [Count.add, List.length_drop, Queue.tail, Count.sub] at hlen htake ⊢
      omega
    · simp only [Function.update_of_ne hne]
      exact Grew.refl _
    · simp only [Function.update_self]
      exact ⟨le_rfl, le_rfl, Nat.le_add_right _ _, le_rfl⟩
    · simp only [Function.update_of_ne hne, and_self]
    · simp only [Function.update_self, and_self]
    · intro hnone
      simp only [Function.update_self, reduceCtorEq] at hnone
    · -- the own deque is as it was
      have hw := h.window i
      simp only [St.content, hpc, Pc.ahead] at hw
      simp only [St.content, Function.update_of_ne hne, Function.update_self, Pc.ahead, List.take_zero]
      cases hu : s.thief i with
      | none =>
        rw [hu] at hw
        exact hw
      | some u =>
        rw [hu] at hw
        simpa only [Option.elim_some, Function.update_of_ne (h.thief_ne hu)] using hw
    · -- the slots of the claimed items come first
      have hw := h.window j
      simp only [St.content, hfree, Option.elim_none, List.nil_append] at hw
      simp only [St.content, Function.update_self, Function.update_of_ne hji, Option.elim_some, Pc.left, List.replicate_zero,
        List.drop_zero, List.nil_append]
      rw [← List.map_append, List.take_append_drop]
      exact hw
    · simp only [Function.update_self]
      refine ⟨hne, htakeLen, hpos, ?_, ?_⟩
      · simp only [Function.update_self]
        exact ⟨hq.booked, hpos, hcalm, rfl⟩
      · simp only [Function.update_of_ne hne]
        unfold Fits at hfits ⊢
        omega
    · refine .snoc h.accepted ?_
      have he : Allows cap s.spec (.book i j ((s.items j).take count)) _ := .book s.spec i j _ ((s.items j).drop count) hne
        (fun hnil => by rw [hnil, List.length_nil] at htakeLen; omega) (List.take_append_drop count _).symm hhand
        (by simp only [St.spec]; omega)
      simp only [St.spec, busy_update]
      have hbusy : ((s.queue j).booked.add count).moves - (s.queue j).head.moves = ((s.items j).take count).length := by
        simp only [Count.add]
        omega
      rw [hbusy]
      exact he
  · cases hstep
    exact bookNext_inv h (by rw [hpc]; rfl) (by rw [hpc]; rfl) (by rw [hpc]; rfl) hne hhand hfits
      ⟨hq.pop, hq.booked, le_rfl, le_rfl, by omega⟩ hok hle (by omega) (by omega)

/-- the items past the end fit too -/
theorem Inv.ahead_le (h : Inv cap s) (i : ℕ) :
    (s.queue i).tail.moves + ((s.pc i).ahead (s.hand i)).length ≤ (s.queue i).head.moves + cap := by
  have hroom := (h.queues i).room
  have hok := h.pcs i
  generalize s.pc i = pc at hok
  cases pc with
  | pushStore x => exact hok.2
  | popRead tail =>
    obtain ⟨⟨x, hx⟩, -, hmoves, hle⟩ := hok
    simp only [Pc.ahead, hx, List.length_singleton]
    omega
  | move j start count k =>
    obtain ⟨-, -, hk, -, hfits⟩ := hok
    unfold Fits at hfits
    simp only [Pc.ahead, List.length_take]
    omega
  | landPush j start count x =>
    obtain ⟨-, -, hr, hfits⟩ := hok
    have hpos := hr.pos
    unfold Fits at hfits
    simp only [Pc.ahead, List.length_take]
    omega
  | _ => exact hroom

theorem Inv.content_length (h : Inv cap s) (j : ℕ) : (s.content j).length ≤ cap := by
  have hend := (h.queues j).end_moves (h.left_length j)
  have hle := h.ahead_le j
  have hhead := (h.queues j).head_le_tail
  simp only [St.content, List.length_append, List.length_map] at hend ⊢
  omega

/-- the claimed items are in the slots from `start` on -/
theorem Inv.claimed (h : Inv cap s) {start : Count} {count k : ℕ} (hpc : s.pc i = .move j start count k) :
    s.content j = List.replicate k none ++ ((s.hand i).drop k).map some ++ ((s.items j).map some ++
      ((s.pc j).ahead (s.hand j)).map some) := by
  have hj : s.thief j = some i := (h.thieves i j).2 (by rw [hpc]; rfl)
  simp only [St.content, hj, Option.elim_some, hpc, Pc.left, List.append_assoc]

/-- the slot of the next claimed item -/
theorem Inv.move_slot (h : Inv cap s) (hcap : cap ∣ short) {start : Count} {count k : ℕ} (hpc : s.pc i = .move j start count k) :
    (start.word + k) % short % cap = ((s.queue j).head.moves + k) % cap := by
  obtain ⟨-, -, -, hr, -⟩ := h.pc_ok hpc
  rw [hr.ok.slot hcap, hr.head]

theorem Inv.move_get (h : Inv cap s) (hcap : cap ∣ short) {start : Count} {count k : ℕ} (hpc : s.pc i = .move j start count k) :
    ∃ x, (s.hand i)[k]? = some x ∧ (s.queue j).buffer ((start.word + k) % short % cap) = some x := by
  obtain ⟨-, hlen, hk, -, -⟩ := h.pc_ok hpc
  have hw := h.window j
  have hle := h.content_length j
  rw [h.claimed hpc] at hw hle
  simp only [List.length_append, List.length_replicate, List.length_map, List.length_drop] at hle
  refine ⟨(s.hand i)[k], List.getElem?_eq_getElem (by omega), ?_⟩
  rw [h.move_slot hcap hpc]
  refine hw.get (by omega) ?_
  rw [List.append_assoc, List.getElem?_append_right (by rw [List.length_replicate]), List.length_replicate, Nat.sub_self,
    List.getElem?_append_left (by rw [List.length_map, List.length_drop]; omega), List.getElem?_map, List.getElem?_drop, Nat.add_zero,
    List.getElem?_eq_getElem (by omega)]
  rfl

/-- one more slot is left behind -/
theorem Inv.move_take (h : Inv cap s) (hcap : cap ∣ short) {start : Count} {count k : ℕ} (hpc : s.pc i = .move j start count k) :
    Window cap (s.queue j).head.moves (Function.update (s.queue j).buffer ((start.word + k) % short % cap) none)
      (List.replicate (k + 1) none ++ ((s.hand i).drop (k + 1)).map some ++ ((s.items j).map some ++
        ((s.pc j).ahead (s.hand j)).map some)) := by
  obtain ⟨-, hlen, hk, -, -⟩ := h.pc_ok hpc
  have hkl : k < (s.hand i).length := by omega
  have hw := h.window j
  have hle := h.content_length j
  rw [h.claimed hpc] at hw hle
  have hset := hw.set (k := k) (by simp only [List.length_append, List.length_replicate, List.length_map, List.length_drop]; omega) hle none
  rw [← h.move_slot hcap hpc, List.drop_eq_getElem_cons hkl, List.map_cons, List.append_assoc,
    List.set_append_right k none (by rw [List.length_replicate]), List.length_replicate, Nat.sub_self, List.cons_append,
    List.set_cons_zero] at hset
  rw [List.replicate_succ', List.append_assoc, List.append_assoc]
  exact hset

/-- a thief goes on to `pc`, and only slots of the two deques change -/
theorem Inv.moved (h : Inv cap s) {start : Count} {count k : ℕ} (hpc : s.pc i = .move j start count k) {pc : Pc T}
    {bi bj : ℕ → Option T} (hrobs : pc.robs = some j)
    (hwi : ∀ L : List (Option T), L.length = (s.queue i).booked.moves - (s.queue i).head.moves →
      Window cap (s.queue i).head.moves (s.queue i).buffer (L ++ (s.items i).map some ++ ((s.pc i).ahead (s.hand i)).map some) →
      Window cap (s.queue i).head.moves bi (L ++ (s.items i).map some ++ (pc.ahead (s.hand i)).map some))
    (hwj : Window cap (s.queue j).head.moves bj
      (pc.left (s.hand i) ++ ((s.items j).map some ++ ((s.pc j).ahead (s.hand j)).map some)))
    (hok : ∀ queue : ℕ → Queue T, Robs (queue j) start count → Fits cap (queue i) count → PcOk cap queue (s.hand i) i pc) :
    Inv cap ⟨Function.update (Function.update s.queue j { s.queue j with buffer := bj }) i { s.queue i with buffer := bi },
      Function.update s.pc i pc, s.items, s.hand, s.thief, s.log, false⟩ := by
  have hqi := h.queues i
  have hqj := h.queues j
  obtain ⟨hne, -, -, hr, hfits⟩ := h.pc_ok hpc
  have hji : j ≠ i := hne.symm
  have hthief : s.thief j = some i := (h.thieves i j).2 (by rw [hpc]; rfl)
  refine h.next hne ?_ ?_ (fun _ _ => rfl) ?_ ?_ ?_ (fun _ _ => Iff.rfl) ?_ ?_ ?_ ?_ ?_ ?_ ?_ ?_ ?_ ?_ ?_ ?_ rfl
  · exact fun u hu => ⟨Function.update_of_ne hu _ _, rfl⟩
  · exact fun m hmi hmj => ⟨by simp only [Function.update_of_ne hmi, Function.update_of_ne hmj], rfl⟩
  · intro m hm
    rw [hpc] at hm
    exact (Option.some.inj hm).symm
  · intro m hm
    simp only [Function.update_self, hrobs] at hm
    exact (Option.some.inj hm).symm
  · simp only [Function.update_self, hrobs, hthief]
  · intro u hu huj
    rw [hthief] at huj
    exact absurd (Option.some.inj huj).symm hu
  · simp only [Function.update_self]
    exact ⟨hqi.push, hqi.pop, hqi.booked, hqi.head, hqi.pops, hqi.head_le, hqi.length, hqi.room⟩
  · simp only [Function.update_of_ne hji, Function.update_self]
    exact ⟨hqj.push, hqj.pop, hqj.booked, hqj.head, hqj.pops, hqj.head_le, hqj.length, hqj.room⟩
  · simp only [Function.update_self]
    exact ⟨le_rfl, le_rfl, le_rfl, le_rfl⟩
  · simp only [Function.update_of_ne hji, Function.update_self]
    exact ⟨le_rfl, le_rfl, le_rfl, le_rfl⟩
  · simp only [Function.update_self, and_self]
  · simp only [Function.update_of_ne hji, Function.update_self, and_self]
  · intro hnone
    rw [hthief] at hnone
    cases hnone
  · have hw := hwi _ (h.left_length i) (h.window i)
    simp only [St.content, Function.update_self]
    cases hu : s.thief i with
    | none =>
      rw [hu] at hw
      exact hw
    | some u =>
      rw [hu] at hw
      simpa only [Option.elim_some, Function.update_of_ne (h.thief_ne hu)] using hw
  · simp only [St.content, hthief, Option.elim_some, Function.update_self, Function.update_of_ne hji]
    rw [List.append_assoc]
    exact hwj
  · simp only [Function.update_self]
    refine hok _ ?_ ?_
    · simp only [Function.update_of_ne hji, Function.update_self]
      exact ⟨hr.ok, hr.pos, hr.head, hr.booked⟩
    · unfold Fits at hfits ⊢
      simp only [Function.update_self]
      exact hfits
  · -- the counters are as they were
    have hspec : St.spec ⟨Function.update (Function.update s.queue j { s.queue j with buffer := bj }) i
        { s.queue i with buffer := bi }, Function.update s.pc i pc, s.items, s.hand, s.thief, s.log, false⟩ = s.spec := by
      simp only [St.spec, Spec.mk.injEq, true_and]
      funext m
      by_cases hmi : m = i
      · subst hmi
        simp only [Function.update_self]
      · by_cases hmj : m = j
        · subst hmj
          simp only [Function.update_of_ne hmi, Function.update_self]
        · simp only [Function.update_of_ne hmi, Function.update_of_ne hmj]
    rw [hspec]
    exact h.accepted

/-- all but the last item go behind the end of the own deque -/
theorem moveOn_inv (h : Inv cap s) (hcap : cap ∣ short) {start : Count} {count k : ℕ} {x : T} (hpc : s.pc i = .move j start count k)
    (hx : (s.hand i)[k]? = some x) (hk : k + 1 < count) :
    Inv cap (((s.takeAt cap j ((start.word + k) % short)).writeAt cap i (((s.queue i).tail.word + k) % short) x).goto i
      (.move j start count (k + 1))) := by
  have hq := h.queues i
  obtain ⟨hne, hlen, -, -, hfits⟩ := h.pc_ok hpc
  have hslot := hq.tail_ok.slot hcap k
  have hhead := hq.head_le_tail
  unfold Fits at hfits
  have htakeLen : ((s.hand i).take k).length = k := by
    rw [List.length_take]
    omega
  -- the next slot behind the items that were moved before
  have hpos : ∀ L : List (Option T), L.length = (s.queue i).booked.moves - (s.queue i).head.moves →
      (s.queue i).head.moves + (L ++ (s.items i).map some ++ ((s.hand i).take k).map some).length = (s.queue i).tail.moves + k := by
    intro L hL
    rw [List.length_append, List.length_map, htakeLen, ← hq.end_moves hL, Nat.add_assoc]
  have hfree : (s.queue i).buffer (((s.queue i).tail.word + k) % short % cap) = none := by
    have hw := h.window i
    have hposi := hpos _ (h.left_length i)
    simp only [St.content, hpc, Pc.ahead] at hw
    rw [hslot, ← hposi]
    exact hw.next (by omega)
  have hs : ((s.takeAt cap j ((start.word + k) % short)).writeAt cap i (((s.queue i).tail.word + k) % short) x).goto i
      (.move j start count (k + 1)) =
      ⟨Function.update (Function.update s.queue j
          { s.queue j with buffer := Function.update (s.queue j).buffer ((start.word + k) % short % cap) none }) i
          { s.queue i with buffer := Function.update (s.queue i).buffer (((s.queue i).tail.word + k) % short % cap) (some x) },
        Function.update s.pc i (.move j start count (k + 1)), s.items, s.hand, s.thief, s.log, false⟩ := by
    simp only [St.goto, St.takeAt, St.writeAt, St.setQueue, Function.update_of_ne hne, hfree, h.sound, Option.isSome_none, Bool.or_false]
  rw [hs]
  refine h.moved hpc rfl ?_ (h.move_take hcap hpc) fun _ hr' hfits' => ⟨hne, hlen, hk, hr', hfits'⟩
  intro L hL hw
  have hend := hpos L hL
  simp only [hpc, Pc.ahead] at hw
  have hpush := hw.push (by omega) (some x)
  have hgrow : ((s.hand i).take (k + 1)).map some = ((s.hand i).take k).map some ++ [some x] := by
    rw [List.take_add_one, hx, Option.toList_some, List.map_append]
    rfl
  simp only [Pc.ahead, hgrow]
  rw [hend, ← hslot, List.append_assoc] at hpush
  exact hpush

theorem moveLast_inv (h : Inv cap s) (hcap : cap ∣ short) {start : Count} {count k : ℕ} {x : T} (hpc : s.pc i = .move j start count k)
    (hx : (s.hand i)[k]? = some x) (hk : count ≤ k + 1) :
    Inv cap ((s.takeAt cap j ((start.word + k) % short)).goto i (.landPush j start count x)) := by
  obtain ⟨hne, hlen, hlt, -, -⟩ := h.pc_ok hpc
  have hcount : k + 1 = count := by omega
  have htake := h.move_take hcap hpc
  rw [List.drop_eq_nil_of_le (by omega), List.map_nil, List.append_nil, hcount] at htake
  have hsame : ∀ q : Queue T, Function.update s.queue j q = Function.update (Function.update s.queue j q) i (s.queue i) := by
    intro q
    rw [eq_comm, Function.update_eq_self_iff, Function.update_of_ne hne]
  have hs : (s.takeAt cap j ((start.word + k) % short)).goto i (.landPush j start count x) =
      ⟨Function.update (Function.update s.queue j
          { s.queue j with buffer := Function.update (s.queue j).buffer ((start.word + k) % short % cap) none }) i (s.queue i),
        Function.update s.pc i (.landPush j start count x), s.items, s.hand, s.thief, s.log, false⟩ := by
    simp only [St.goto, St.takeAt, St.setQueue, h.sound, ← hsame]
  rw [hs]
  refine h.moved hpc rfl ?_ htake fun _ hr hfits => ⟨hne, ⟨(s.hand i).take k, ?_, ?_⟩, hr, hfits⟩
  · intro L _ hw
    simpa only [hpc, Pc.ahead, ← hcount, Nat.add_sub_cancel] using hw
  · have hlast := List.take_add_one (l := s.hand i) (i := k)
    rw [hx, List.take_of_length_le (by omega)] at hlast
    exact hlast
  · rw [List.length_take]
    omega

theorem move_inv (h : Inv cap s) (hcap : cap ∣ short) {start : Count} {count k want : ℕ} {spurious : Bool}
    (hpc : s.pc i = .move j start count k) (hstep : thiefStep cap s i want spurious (s.pc i) = some s') : Inv cap s' := by
  obtain ⟨x, hx, hread⟩ := h.move_get hcap hpc
  rw [hpc] at hstep
  simp only [thiefStep, hread] at hstep
  split at hstep
  · rename_i hk
    cases hstep
    exact moveOn_inv h hcap hpc hx hk
  · rename_i hk
    cases hstep
    exact moveLast_inv h hcap hpc hx (Nat.le_of_not_lt hk)

theorem landPush_inv (h : Inv cap s) {start : Count} {count want : ℕ} {x : T} {spurious : Bool}
    (hpc : s.pc i = .landPush j start count x) (hstep : thiefStep cap s i want spurious (s.pc i) = some s') : Inv cap s' := by
  have hq := h.queues i
  obtain ⟨hne, ⟨xs, hhand, hcount⟩, hr, hfits⟩ := h.pc_ok hpc
  have htail : (s.queue i).tail.moves = (s.queue i).pushCount.moves - (s.queue i).popCount.moves := rfl
  have hlen := hq.length
  have hpops := hq.pops
  have hle := hq.head_le
  unfold Fits at hfits
  have hxs : count - 1 = xs.length := by omega
  rw [hpc] at hstep
  simp only [thiefStep, hxs, hhand, List.take_left, List.drop_left] at hstep
  cases hstep
  have hs : (((((s.setQueue i { s.queue i with pushCount := (s.queue i).pushCount.add xs.length }).setItems i
      (s.items i ++ xs)).setHand i [x]).goto i (.landHead j start count x)).note (.land i xs)) =
      ⟨Function.update s.queue i { s.queue i with pushCount := (s.queue i).pushCount.add xs.length },
        Function.update s.pc i (.landHead j start count x), Function.update s.items i (s.items i ++ xs), Function.update s.hand i [x],
        s.thief, s.log ++ [.land i xs], false⟩ := by
    simp only [St.goto, St.note, St.setItems, St.setHand, St.setQueue, h.sound]
  rw [hs]
  refine h.own (by rw [hpc]; rfl) (by rw [hpc]; rfl) rfl rfl (Nat.le_add_right _ _) le_rfl
    ⟨hq.push.add xs.length, hq.pop, hq.booked, hq.head, hpops.trans (Nat.le_add_right _ _), hle, ?_, ?_⟩ ?_ ⟨hne, rfl, ?_⟩ ?_
  · simp only [Queue.tail, Count.sub, Count.add, List.length_append]
    omega
  · simp only [Queue.tail, Count.sub, Count.add]
    omega
  · intro L _ hw
    simpa only [hpc, Pc.ahead, hxs, hhand, List.take_left, List.map_append, List.map_nil, List.append_nil, List.append_assoc] using hw
  · simp only [Function.update_of_ne hne.symm]
    exact hr
  · refine .snoc h.accepted (.land s.spec i xs x hhand ?_)
    simp only [St.spec]
    omega

theorem landHead_inv (h : Inv cap s) {start : Count} {count want : ℕ} {x : T} {spurious : Bool}
    (hpc : s.pc i = .landHead j start count x) (hstep : thiefStep cap s i want spurious (s.pc i) = some s') : Inv cap s' := by
  have hqj := h.queues j
  obtain ⟨hne, hhand, hr⟩ := h.pc_ok hpc
  have hji : j ≠ i := hne.symm
  have hthief : s.thief j = some i := (h.thieves i j).2 (by rw [hpc]; rfl)
  have hhead := hr.head
  have hbooked := hr.booked
  have hlen := hqj.length
  have hroom := hqj.room
  rw [hpc] at hstep
  cases hstep
  have hs : (((((s.setQueue j { s.queue j with head := start.add count }).setHand i []).setThief j none).goto i .idle).note
      (.stolen i j x)) =
      ⟨Function.update s.queue j { s.queue j with head := start.add count }, Function.update s.pc i .idle, s.items,
        Function.update s.hand i [], Function.update s.thief j none, s.log ++ [.stolen i j x], false⟩ := by
    simp only [St.goto, St.note, St.setHand, St.setThief, St.setQueue, h.sound]
  rw [hs]
  refine h.next hne ?_ ?_ ?_ ?_ ?_ ?_ ?_ ?_ ?_ ?_ ?_ ?_ ?_ ?_ ?_ ?_ ?_ ?_ ?_ rfl
  · exact fun u hu => ⟨Function.update_of_ne hu _ _, Function.update_of_ne hu _ _⟩
  · exact fun k _ hkj => ⟨Function.update_of_ne hkj _ _, rfl⟩
  · exact fun k hk => Function.update_of_ne hk _ _
  · intro k hk
    rw [hpc] at hk
    exact (Option.some.inj hk).symm
  · intro k hk
    simp only [Function.update_self, Pc.robs, reduceCtorEq] at hk
  · simp only [Function.update_self, Pc.robs, reduceCtorEq]
  · intro u hu
    simp only [Function.update_self, hthief]
    exact ⟨(fun hk => by cases hk), fun hk => absurd (Option.some.inj hk).symm hu⟩
  · intro u hu huj
    rw [hthief] at huj
    exact absurd (Option.some.inj huj).symm hu
  · simpa only [Function.update_of_ne hne] using h.queues i
  · simp only [Function.update_self]
    refine ⟨hqj.push, hqj.pop, hqj.booked, hr.ok.add count, hqj.pops, ?_, hlen, ?_⟩
    · simp only [Count.add]
      omega
    · simp only [Count.add]
      exact hroom.trans (by omega)
  · simp only [Function.update_of_ne hne]
    exact Grew.refl _
  · simp only [Function.update_self]
    exact ⟨le_rfl, le_rfl, le_rfl, by simp only [Count.add]; omega⟩
  · simp only [Function.update_of_ne hne, and_self]
  · simp only [Function.update_self, and_self]
  · intro _
    simp only [Function.update_self, Count.add]
    exact hbooked
  · have hw := h.window i
    have hhere : Function.update s.thief j none i = s.thief i := Function.update_of_ne hne _ _
    have hsame : St.content ⟨Function.update s.queue j { s.queue j with head := start.add count }, Function.update s.pc i .idle, s.items,
        Function.update s.hand i [], Function.update s.thief j none, s.log ++ [.stolen i j x], false⟩ i = s.content i := by
      refine content_same hhere rfl (fun u hu => ?_) ?_
      · simp only [Function.update_of_ne (h.thief_ne hu)]
      · rw [hpc]
        simp only [Function.update_self, Pc.ahead]
    rw [hsame]
    simpa only [Function.update_of_ne hne] using hw
  · -- the slots before the new head are empty
    have hw := h.window j
    have hle := h.content_length j
    simp only [St.content, hthief, Option.elim_some, hpc, Pc.left, List.append_assoc] at hw hle
    have hshift := hw.shift (by simpa only [List.length_append, List.length_replicate] using hle)
    simp only [St.content, Function.update_self, Function.update_of_ne hji, Option.elim_none, List.nil_append, Count.add, hhead]
    exact hshift
  · simp only [Function.update_self, PcOk]
  · refine .snoc h.accepted ?_
    simp only [St.spec, busy_update]
    have hbusy : (s.queue j).booked.moves - (start.add count).moves = 0 := by
      simp only [Count.add]
      omega
    rw [hbusy]
    exact .stolen s.spec i j x hhand

theorem thiefStep_inv (h : Inv cap s) (hcap : cap ∣ short) (hlt : cap < short) (htimely : Timely cap s) {want : ℕ} {spurious : Bool}
    (hstep : thiefStep cap s i want spurious (s.pc i) = some s') : Inv cap s' := by
  cases hpc : s.pc i with
  | likelyPush j => exact likelyPush_inv h hpc hstep
  | likelyHead j push => exact likelyHead_inv h hpc hstep
  | room j => exact room_inv h hlt hpc hstep
  | bookLoad j room => exact bookLoad_inv h hpc hstep
  | bookHead j room pop booked => exact bookHead_inv h hlt htimely hpc hstep
  | bookPush j room old pop booked => exact bookPush_inv h htimely hpc hstep
  | bookCas j room old pop booked count => exact bookCas_inv h htimely hpc hstep
  | move j start count k => exact move_inv h hcap hpc hstep
  | landPush j start count x => exact landPush_inv h hpc hstep
  | landHead j start count x => exact landHead_inv h hpc hstep
  | _ => simp only [hpc, thiefStep, reduceCtorEq] at hstep

/-! ## Any step -/

theorem start_inv (h : Inv cap s) {pc : Pc T} (hidle : (s.pc i).isIdle = true) (hleft : pc.left [] = []) (hahead : pc.ahead [] = [])
    (hrobs : pc.robs = none) (hok : PcOk cap s.queue [] i pc) : Inv cap (s.goto i pc) := by
  have hpc : s.pc i = .idle := by
    cases hp : s.pc i with
    | idle => rfl
    | _ =>
      rw [hp] at hidle
      cases hidle
  have hhand : s.hand i = [] := h.pc_ok hpc
  exact h.goto (by rw [hpc, hhand, hleft]; rfl) (by rw [hpc, hhand, hahead]; rfl) (by rw [hpc, hrobs]; rfl) (by rw [hhand]; exact hok)

theorem step_inv (h : Inv cap s) (hcap : cap ∣ short) (hpos : 0 < cap) (hlt : cap < short) (htimely : Timely cap s) {a : Act T}
    (hstep : step cap s a = some s') : Inv cap s' := by
  cases a with
  | push i x =>
    obtain ⟨hidle, hs⟩ := Option.ite_none_right_eq_some.1 hstep
    cases hs
    exact start_inv h hidle rfl rfl rfl rfl
  | pop i =>
    obtain ⟨hidle, hs⟩ := Option.ite_none_right_eq_some.1 hstep
    cases hs
    exact start_inv h hidle rfl rfl rfl rfl
  | steal i j =>
    obtain ⟨⟨hidle, hne⟩, hs⟩ := Option.ite_none_right_eq_some.1 hstep
    cases hs
    exact start_inv h hidle rfl rfl rfl ⟨hne, rfl⟩
  | run i want spurious =>
    rcases Option.or_eq_some_iff.1 hstep with hown | ⟨-, hthief⟩
    · exact ownStep_inv h hcap hpos hlt hown
    · exact thiefStep_inv h hcap hlt htimely hthief

end YouPipe.Lifo
