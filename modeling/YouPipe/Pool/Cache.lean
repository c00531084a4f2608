/-
The recycling cache of compute pools (`PoolCache`, `acquire` and `clear` in `executor/compute/pool_cache.rs`).

Any number of calls run at once. A call takes the cache mutex, does the work of a locked section, and releases the mutex; a miss
builds its pool between two sections; what fell out of the cache is dropped after the release, one handle after the other. A
step is one of these for one call, so builds and drops of other calls fall between the steps of a section too. A pool is named
by its place in `built`, which records its size and the call that built it. `history` lists the commits and the clears, the
last one first, each commit with the slots it left behind.

Results: `recycling` for every order of steps, from `Inv`. Its parts about the ends of calls are `Inv.ends` (a call whose build
succeeds returns after enough turns), `Inv.blocked` (whoever waits for the mutex waits for a call on its way out) and `finishes`
(a call that has left its section drops its stale list).
-/
import Mathlib.Tactic
import YouPipe.Core.Recency
import YouPipe.Core.SlotTable
import YouPipe.Pool.Counters

namespace YouPipe.PoolCache

open YouPipe.Pool (threadsMax numThreads)

/-! ## The cache -/

/-- `CACHE_CAPACITY` -/
def cacheCapacity : ℕ := 4

/-- `workers.clamp(1, MAX_COMPUTE_WORKERS)` -/
def clampWorkers (workers : ℕ) : ℕ := max 1 (min workers threadsMax)

/-- `(worker count, pool)` pairs, the most recent one first -/
abbrev Slots := List (ℕ × ℕ)

/-- `PoolCache::get`: the pool, and the slots with its slot moved to the front -/
def get (slots : Slots) (workers : ℕ) : Option (ℕ × Slots) := do
  let idx ← slots.findIdx? fun e => e.1 == workers
  let entry ← slots[idx]?
  some (entry.2, entry :: slots.eraseIdx idx)

/-- `PoolCache::insert`: the slots kept and the pools that fall out; `none` when the assertion on the key fails -/
def insert (slots : Slots) (workers pool : ℕ) : Option (Slots × List ℕ) :=
  if slots.all fun e => e.1 != workers then
    let slots := (workers, pool) :: slots
    let at_ := min cacheCapacity slots.length
    some (slots.take at_, (slots.drop at_).map Prod.snd)
  else none

/-- `PoolCache::clear` -/
def clear (slots : Slots) : Slots × List ℕ := ([], slots.map Prod.snd)

/-! ### What they do -/

/-- a hit takes its entry out of its place and puts it in front -/
theorem get_eq_some {slots slots' : Slots} {key p : ℕ} (h : get slots key = some (p, slots')) :
    ∃ a b, slots = a ++ (key, p) :: b ∧ slots' = (key, p) :: (a ++ b) := by
  simp only [get, Option.bind_eq_bind, Option.bind_eq_some_iff, Option.some.injEq, Prod.mk.injEq] at h
  obtain ⟨idx, hidx, ⟨k, q⟩, hentry, rfl, rfl⟩ := h
  obtain ⟨hlt, hkey, -⟩ := List.findIdx?_eq_some_iff_getElem.1 hidx
  obtain ⟨a, b, hab, ha, -⟩ := SlotTable.split_at hentry
  have hk : k = key := by
    rw [List.getElem?_eq_getElem hlt, Option.some.injEq] at hentry
    rw [hentry] at hkey
    exact eq_of_beq hkey
  subst hk ha hab
  exact ⟨a, b, rfl, by rw [List.eraseIdx_append_of_length_le le_rfl]; simp⟩

theorem get_eq_none {slots : Slots} {key : ℕ} (h : get slots key = none) : key ∉ slots.map Prod.fst := by
  intro hmem
  obtain ⟨e, he, rfl⟩ := List.mem_map.1 hmem
  cases hidx : slots.findIdx? fun x => x.1 == e.1 with
  | none =>
    have hne := List.findIdx?_eq_none_iff.1 hidx e he
    simp at hne
  | some idx =>
    obtain ⟨hlt, -⟩ := List.findIdx?_eq_some_iff_getElem.1 hidx
    simp [get, hidx, hlt] at h

theorem get_keys {slots slots' : Slots} {key p : ℕ} (h : get slots key = some (p, slots'))
    (hnd : (slots.map Prod.fst).Nodup) :
    key ∈ slots.map Prod.fst ∧ slots'.map Prod.fst = key :: (slots.map Prod.fst).filter (· != key) := by
  obtain ⟨a, b, rfl, rfl⟩ := get_eq_some h
  refine ⟨by simp, ?_⟩
  rw [List.map_append, List.map_cons, List.nodup_middle, List.nodup_cons, ← List.map_append] at hnd
  have hrest : ((a ++ b).map Prod.fst).filter (· != key) = (a ++ b).map Prod.fst := by
    rw [List.filter_eq_self]
    intro x hx
    have hne : x ≠ key := by rintro rfl; exact hnd.1 hx
    simp [hne]
  rw [List.map_cons, ← hrest]
  simp

theorem get_perm {slots slots' : Slots} {key p : ℕ} (h : get slots key = some (p, slots')) : slots'.Perm slots := by
  obtain ⟨a, b, rfl, rfl⟩ := get_eq_some h
  exact List.perm_middle.symm

theorem mem_of_get {slots slots' : Slots} {key p : ℕ} (h : get slots key = some (p, slots')) : (key, p) ∈ slots' := by
  obtain ⟨a, b, -, rfl⟩ := get_eq_some h
  exact List.mem_cons_self

/-- an insertion of a key that is not there passes its assertion and cuts the slots to the capacity -/
theorem insert_eq {slots : Slots} {key p : ℕ} (hkey : key ∉ slots.map Prod.fst) :
    insert slots key p = some (((key, p) :: slots).take cacheCapacity,
      (((key, p) :: slots).drop cacheCapacity).map Prod.snd) := by
  have hall : slots.all (fun e => e.1 != key) = true := by
    rw [List.all_eq_true]
    intro e he
    have hne : e.1 ≠ key := by rintro rfl; exact hkey (List.mem_map_of_mem he)
    simp [hne]
  have hcut : ∀ l : Slots, l.take (min cacheCapacity l.length) = l.take cacheCapacity := by
    intro l
    rw [← List.take_eq_take_min]
  have hrest : ∀ l : Slots, l.drop (min cacheCapacity l.length) = l.drop cacheCapacity := by
    intro l
    rcases Nat.le_total cacheCapacity l.length with hle | hle
    · rw [Nat.min_eq_left hle]
    · rw [Nat.min_eq_right hle, List.drop_length, List.drop_eq_nil_of_le hle]
  rw [insert, if_pos hall]
  simp only [hcut, hrest]

theorem numThreads_clampWorkers (w : ℕ) : numThreads (clampWorkers w) = clampWorkers w := by
  have h : 1 ≤ threadsMax := by decide
  simp only [numThreads, clampWorkers]
  omega

/-! ## The calls -/

inductive Request where
  | acquire (workers : ℕ)
  | clear
deriving DecidableEq, Repr

/-- what a call returns -/
inductive Outcome where
  | pool (p : ℕ)
  | count (n : ℕ)
deriving DecidableEq, Repr

/-- where a call stands -/
inductive Phase where
  | look (key : ℕ)
  | looking (key : ℕ)
  | missed (key : ℕ)
  | build (key : ℕ)
  | enter (key fresh : ℕ)
  | entering (key fresh : ℕ)
  | empty
  | emptying
  | leave (out : Outcome) (stale : List ℕ)
  | drop (out : Outcome) (stale : List ℕ)
  | done (out : Outcome)
  | failed
  | asserted
deriving DecidableEq, Repr

namespace Phase

/-- the call holds the cache mutex -/
def locked : Phase → Bool
  | looking _ | missed _ | entering _ _ | emptying | leave _ _ => true
  | _ => false

/-- the handle that is local to the call that built it -/
def fresh : Phase → List ℕ
  | enter _ p | entering _ p => [p]
  | _ => []

/-- the stale list -/
def stale : Phase → List ℕ
  | leave _ l | drop _ l => l
  | _ => []

end Phase

structure Call where
  request : Request
  phase : Phase
deriving DecidableEq, Repr

/-- a pool: its worker threads and the call that built it -/
structure Pool where
  workers : ℕ
  builder : ℕ
deriving DecidableEq, Repr

inductive Event where
  | commit (call key pool : ℕ) (slots : Slots)
  | clear (call : ℕ)
deriving DecidableEq, Repr

/-- the keys committed since the last clear, the last one first -/
def keysSince : List Event → List ℕ
  | .commit _ k _ _ :: rest => k :: keysSince rest
  | .clear _ :: _ => []
  | [] => []

structure St where
  slots : Slots
  lock : Option ℕ
  calls : List Call
  built : List Pool
  dropped : List ℕ
  history : List Event
deriving DecidableEq, Repr

def init : St := ⟨[], none, [], [], [], []⟩

/-- a new call, or the next step of call `i`; `ok` decides whether a build succeeds -/
inductive Act where
  | call (r : Request)
  | next (i : ℕ) (ok : Bool)
deriving DecidableEq, Repr

def start : Request → Phase
  | .acquire w => .look (clampWorkers w)
  | .clear => .empty

/-- call `i` moves to `ph` -/
def St.goto (s : St) (i : ℕ) (c : Call) (ph : Phase) : St := { s with calls := s.calls.set i ⟨c.request, ph⟩ }

/-- call `i` takes the mutex when it is free -/
def St.take (s : St) (i : ℕ) (c : Call) (ph : Phase) : St :=
  if s.lock = none then { s.goto i c ph with lock := some i } else s

/-- call `i` commits to pool `p` under `key` -/
def St.commit (s : St) (i : ℕ) (c : Call) (key p : ℕ) (slots : Slots) (stale : List ℕ) : St :=
  { s.goto i c (.leave (.pool p) stale) with slots := slots, history := .commit i key p slots :: s.history }

/-- the next step of call `i` -/
def next (s : St) (i : ℕ) (c : Call) (ok : Bool) : St :=
  match c.phase with
  | .look key => s.take i c (.looking key)
  | .looking key =>
    match get s.slots key with
    | some (p, slots) => s.commit i c key p slots []
    | none => s.goto i c (.missed key)
  | .missed key => { s.goto i c (.build key) with lock := none }
  | .build key =>
    -- `Registry::new` clamps once more; a failed thread spawn panics and leaves no pool behind
    if ok then { s.goto i c (.enter key s.built.length) with built := s.built ++ [⟨numThreads key, i⟩] }
    else s.goto i c .failed
  | .enter key fresh => s.take i c (.entering key fresh)
  | .entering key fresh =>
    match get s.slots key with
    | some (p, slots) => s.commit i c key p slots [fresh]
    | none =>
      match insert s.slots key fresh with
      | some (slots, stale) => s.commit i c key fresh slots stale
      -- the unwinding drops the argument of `insert` before it releases the mutex
      | none => { s.goto i c .asserted with dropped := s.dropped ++ [fresh], lock := none }
  | .empty => s.take i c .emptying
  | .emptying =>
    let (slots, stale) := clear s.slots
    { s.goto i c (.leave (.count stale.length) stale) with slots := slots, history := .clear i :: s.history }
  | .leave out stale => { s.goto i c (.drop out stale) with lock := none }
  | .drop out (p :: stale) => { s.goto i c (.drop out stale) with dropped := s.dropped ++ [p] }
  | .drop out [] => s.goto i c (.done out)
  | .done _ | .failed | .asserted => s

def step (s : St) : Act → St
  | .call r => { s with calls := s.calls ++ [⟨r, start r⟩] }
  | .next i ok =>
    match s.calls[i]? with
    | some c => next s i c ok
    | none => s

def run (acts : List Act) : St := acts.foldl step init

/-! ## Where a handle is -/

inductive Place where
  /-- local to call `i` -/
  | fresh (i : ℕ)
  /-- in cache slot `j` -/
  | slot (j : ℕ)
  /-- entry `j` of the stale list of call `i` -/
  | stale (i j : ℕ)
  /-- the `j`-th handle dropped -/
  | dropped (j : ℕ)
deriving DecidableEq, Repr

/-- the cache's own handle of pool `p` is at this place -/
def St.At (s : St) (p : ℕ) : Place → Prop
  | .fresh i => ∃ c, s.calls[i]? = some c ∧ c.phase.fresh = [p]
  | .slot j => ∃ key, s.slots[j]? = some (key, p)
  | .stale i j => ∃ c, s.calls[i]? = some c ∧ c.phase.stale[j]? = some p
  | .dropped j => s.dropped[j]? = some p

/-- all handles of the cache, with those it has dropped -/
def St.handles (s : St) : List ℕ :=
  s.slots.map Prod.snd ++ s.calls.flatMap (fun c => c.phase.fresh) ++ s.calls.flatMap (fun c => c.phase.stale) ++ s.dropped

/-! ## The invariant -/

/-- what a call returns comes out of its commit -/
def Served (built : List Pool) (history : List Event) (i : ℕ) (request : Request) : Outcome → Prop
  | .pool p => ∃ w slots, request = .acquire w ∧ (∃ b, built[p]? = some ⟨clampWorkers w, b⟩) ∧
      .commit i (clampWorkers w) p slots ∈ history ∧ (clampWorkers w, p) ∈ slots
  | .count _ => request = .clear ∧ .clear i ∈ history

def CallOk (built : List Pool) (history : List Event) (i : ℕ) (c : Call) : Prop :=
  match c.phase with
  | .look key | .looking key | .missed key | .build key => ∃ w, c.request = .acquire w ∧ key = clampWorkers w
  | .enter key p | .entering key p =>
    ∃ w, c.request = .acquire w ∧ key = clampWorkers w ∧ built[p]? = some ⟨key, i⟩
  | .empty | .emptying => c.request = .clear
  | .leave out _ | .drop out _ | .done out => Served built history i c.request out
  | .failed => True
  | .asserted => False

structure Inv (s : St) : Prop where
  keys : s.slots.map Prod.fst = (keysSince s.history).eraseDups.take cacheCapacity
  sizes : ∀ e ∈ s.slots, ∃ b, s.built[e.2]? = some ⟨e.1, b⟩
  handles : s.handles.Perm (List.range s.built.length)
  calls : ∀ i c, s.calls[i]? = some c → CallOk s.built s.history i c
  lock : ∀ i, s.lock = some i ↔ ∃ c, s.calls[i]? = some c ∧ c.phase.locked = true

theorem Inv.nodup {s : St} (h : Inv s) : (s.slots.map Prod.fst).Nodup := by
  rw [h.keys]
  exact (List.take_sublist _ _).nodup (Recency.nodup_eraseDups _)

theorem getElem?_of_prefix {α : Type} {l l' : List α} (h : l <+: l') {i : ℕ} {x : α} (hx : l[i]? = some x) :
    l'[i]? = some x := by
  obtain ⟨r, rfl⟩ := h
  obtain ⟨hi, -⟩ := List.getElem?_eq_some_iff.1 hx
  rwa [List.getElem?_append_left hi]

theorem Served.mono {built built' : List Pool} {history history' : List Event} (hb : built <+: built')
    (hh : history <:+ history') {i : ℕ} {r : Request} {out : Outcome} (h : Served built history i r out) :
    Served built' history' i r out := by
  cases out with
  | pool p =>
    obtain ⟨w, slots, hr, ⟨b, hp⟩, hmem, hin⟩ := h
    exact ⟨w, slots, hr, ⟨b, getElem?_of_prefix hb hp⟩, hh.subset hmem, hin⟩
  | count n => exact h.imp_right fun hmem => hh.subset hmem

/-- what holds of a call stays true when pools and events are added -/
theorem CallOk.mono {built built' : List Pool} {history history' : List Event} (hb : built <+: built')
    (hh : history <:+ history') {i : ℕ} {c : Call} (h : CallOk built history i c) : CallOk built' history' i c := by
  obtain ⟨r, ph⟩ := c
  cases ph with
  | enter key p | entering key p =>
    obtain ⟨w, hr, hk, hp⟩ := h
    exact ⟨w, hr, hk, getElem?_of_prefix hb hp⟩
  | leave out _ | drop out _ | done out => exact Served.mono hb hh h
  | _ => exact h

/-! ## One step -/

theorem count_flatMap_set {f : Call → List ℕ} {calls : List Call} {i : ℕ} {c : Call} (hc : calls[i]? = some c) (c' : Call)
    (p : ℕ) : ((calls.set i c').flatMap f).count p + (f c).count p = (calls.flatMap f).count p + (f c').count p := by
  obtain ⟨a, b, rfl, -, hset⟩ := SlotTable.split_at hc
  rw [hset]
  simp only [List.flatMap_append, List.flatMap_cons, List.count_append]
  omega

/-- call `i` moves to `ph`: how the mutex, the tables and the handles may change with it -/
structure Moves (s s' : St) (i : ℕ) (c : Call) (ph : Phase) : Prop where
  calls : s'.calls = s.calls.set i ⟨c.request, ph⟩
  lock : s'.lock = if ph.locked then some i else if c.phase.locked then none else s.lock
  free : ph.locked = true → c.phase.locked = true ∨ s.lock = none
  built : s.built <+: s'.built
  history : s.history <:+ s'.history
  handles : ∀ p, (s'.slots.map Prod.snd).count p + ph.fresh.count p + ph.stale.count p + s'.dropped.count p +
      (List.range s.built.length).count p =
    (s.slots.map Prod.snd).count p + c.phase.fresh.count p + c.phase.stale.count p + s.dropped.count p +
      (List.range s'.built.length).count p

theorem Moves.inv {s s' : St} {i : ℕ} {c : Call} {ph : Phase} (m : Moves s s' i c ph) (h : Inv s)
    (hc : s.calls[i]? = some c) (hkeys : s'.slots.map Prod.fst = (keysSince s'.history).eraseDups.take cacheCapacity)
    (hsizes : ∀ e ∈ s'.slots, ∃ b, s'.built[e.2]? = some ⟨e.1, b⟩)
    (hcall : CallOk s'.built s'.history i ⟨c.request, ph⟩) : Inv s' := by
  have hlt : i < s.calls.length := (List.getElem?_eq_some_iff.1 hc).1
  refine ⟨hkeys, hsizes, List.perm_iff_count.2 fun p => ?_, fun j d hd => ?_, fun j => ?_⟩
  · have h1 := List.perm_iff_count.1 h.handles p
    have h2 := m.handles p
    have h3 := count_flatMap_set (f := fun c => c.phase.fresh) hc ⟨c.request, ph⟩ p
    have h4 := count_flatMap_set (f := fun c => c.phase.stale) hc ⟨c.request, ph⟩ p
    simp only [St.handles, List.count_append] at h1 h3 h4 ⊢
    rw [m.calls]
    omega
  · rw [m.calls, List.getElem?_set] at hd
    split_ifs at hd with hij
    · cases hd; subst hij; exact hcall
    · exact (h.calls j d hd).mono m.built m.history
  · have hlock := h.lock j
    have hmine := h.lock i
    rw [m.calls, m.lock]
    by_cases hij : i = j
    · -- the mover holds the mutex exactly when its new phase says so
      subst hij
      rw [List.getElem?_set_self hlt]
      by_cases hph : ph.locked = true
      · simp [hph]
      · by_cases hcl : c.phase.locked = true
        · simp [hph, hcl]
        · simp only [hph, hcl, if_false, Bool.false_eq_true]
          rw [hlock, hc]
          simp [hcl, hph]
    · rw [List.getElem?_set_ne hij]
      by_cases hph : ph.locked = true
      · -- no other call can hold it
        have hno : s.lock ≠ some j := by
          rcases m.free hph with hcl | hnone
          · have := hmine.2 ⟨c, hc, hcl⟩
            rw [this, Ne, Option.some.injEq]
            exact hij
          · rw [hnone]; simp
        rw [← hlock, if_pos hph, Option.some.injEq]
        exact ⟨fun h => absurd h hij, fun h => absurd h hno⟩
      · rw [if_neg hph, ← hlock]
        split_ifs with hcl
        · have := hmine.2 ⟨c, hc, hcl⟩
          rw [this, Option.some.injEq]
          exact ⟨fun h => absurd h (by simp), fun h => absurd h hij⟩
        · rfl

section Step

variable {s : St} {i : ℕ} {c : Call}

/-- a move that touches no table and no handle -/
theorem Inv.quiet (h : Inv s) (hc : s.calls[i]? = some c) {ph : Phase} {lock : Option ℕ}
    (hlock : lock = if ph.locked then some i else if c.phase.locked then none else s.lock)
    (hfree : ph.locked = true → c.phase.locked = true ∨ s.lock = none) (hfresh : ph.fresh = c.phase.fresh)
    (hstale : ph.stale = c.phase.stale) (hok : CallOk s.built s.history i ⟨c.request, ph⟩) :
    Inv { s.goto i c ph with lock := lock } := by
  have m : Moves s { s.goto i c ph with lock := lock } i c ph :=
    ⟨rfl, hlock, hfree, List.prefix_refl _, List.suffix_refl _, fun p => by simp only [St.goto, hfresh, hstale]⟩
  exact m.inv h hc h.keys h.sizes hok

/-- taking the mutex -/
theorem Inv.take (h : Inv s) (hc : s.calls[i]? = some c) {ph : Phase} (hlocked : ph.locked = true)
    (hfresh : ph.fresh = c.phase.fresh) (hstale : ph.stale = c.phase.stale)
    (hok : CallOk s.built s.history i ⟨c.request, ph⟩) : Inv (s.take i c ph) := by
  unfold St.take
  split_ifs with hnone
  · exact h.quiet hc (by rw [if_pos hlocked]) (fun _ => .inr hnone) hfresh hstale hok
  · exact h

/-- releasing the mutex -/
theorem Inv.release (h : Inv s) (hc : s.calls[i]? = some c) {ph : Phase} (hheld : c.phase.locked = true)
    (hlocked : ph.locked = false) (hfresh : ph.fresh = c.phase.fresh) (hstale : ph.stale = c.phase.stale)
    (hok : CallOk s.built s.history i ⟨c.request, ph⟩) : Inv { s.goto i c ph with lock := none } :=
  h.quiet hc (by simp [hheld, hlocked]) (by simp [hlocked]) hfresh hstale hok

/-- the holder moves on inside its section -/
theorem Inv.lock_of_locked (h : Inv s) (hc : s.calls[i]? = some c) (hheld : c.phase.locked = true) : s.lock = some i :=
  (h.lock i).2 ⟨c, hc, hheld⟩

/-- a locked section that commits call `i` -/
theorem Inv.commit (h : Inv s) (hc : s.calls[i]? = some c) (hheld : c.phase.locked = true) {w p : ℕ} {slots : Slots}
    {stale : List ℕ} (hreq : c.request = .acquire w)
    (hkeys : slots.map Prod.fst = (clampWorkers w :: keysSince s.history).eraseDups.take cacheCapacity)
    (hsizes : ∀ e ∈ slots, ∃ b, s.built[e.2]? = some ⟨e.1, b⟩) (hmem : (clampWorkers w, p) ∈ slots)
    (hcount : ∀ q, (slots.map Prod.snd).count q + stale.count q =
      (s.slots.map Prod.snd).count q + c.phase.fresh.count q + c.phase.stale.count q) :
    Inv (s.commit i c (clampWorkers w) p slots stale) := by
  have m : Moves s (s.commit i c (clampWorkers w) p slots stale) i c (.leave (.pool p) stale) := by
    refine ⟨rfl, h.lock_of_locked hc hheld, fun _ => .inl hheld, List.prefix_refl _, List.suffix_cons _ _, fun q => ?_⟩
    have hq := hcount q
    change (slots.map Prod.snd).count q + [].count q + stale.count q + s.dropped.count q + _ = _
    rw [List.count_nil]
    change _ = _ + (List.range s.built.length).count q
    omega
  refine m.inv h hc hkeys hsizes ⟨w, slots, hreq, hsizes _ hmem, List.mem_cons_self, hmem⟩

/-- a hit commits to the pool it finds and leaves the handles where they are -/
theorem Inv.hit (h : Inv s) (hc : s.calls[i]? = some c) (hheld : c.phase.locked = true) (hstale : c.phase.stale = [])
    {w p : ℕ} {slots : Slots} (hreq : c.request = .acquire w) (hget : get s.slots (clampWorkers w) = some (p, slots)) :
    Inv (s.commit i c (clampWorkers w) p slots c.phase.fresh) := by
  have hperm := get_perm hget
  obtain ⟨hin, hmap⟩ := get_keys hget h.nodup
  refine h.commit hc hheld hreq ?_ (fun e he => h.sizes e (hperm.mem_iff.1 he)) (mem_of_get hget) fun q => ?_
  · rw [hmap]
    exact Recency.take_use_of_mem h.keys hin
  · rw [(hperm.map Prod.snd).count_eq, hstale, List.count_nil, Nat.add_zero]

/-- a miss under the mutex: the assertion holds, and the fresh pool takes the front slot -/
theorem Inv.insert (h : Inv s) (hc : s.calls[i]? = some c) {key fresh : ℕ} (hphase : c.phase = .entering key fresh)
    (hget : get s.slots key = none) :
    ∃ slots stale, PoolCache.insert s.slots key fresh = some (slots, stale) ∧ Inv (s.commit i c key fresh slots stale) := by
  have hmiss := get_eq_none hget
  refine ⟨_, _, insert_eq hmiss, ?_⟩
  have hok := h.calls i c hc
  simp only [CallOk, hphase] at hok
  obtain ⟨w, hreq, rfl, hbuilt⟩ := hok
  have hfront : (clampWorkers w, fresh) ∈ ((clampWorkers w, fresh) :: s.slots).take cacheCapacity := by
    rw [show cacheCapacity = 3 + 1 from rfl, List.take_succ_cons]
    exact List.mem_cons_self
  refine h.commit hc (by rw [hphase]; rfl) hreq ?_ (fun e he => ?_) hfront fun q => ?_
  · rw [List.map_take, List.map_cons]
    exact Recency.take_use_of_notMem h.keys hmiss
  · rcases List.mem_cons.1 (List.mem_of_mem_take he) with rfl | he
    · exact ⟨i, hbuilt⟩
    · exact h.sizes e he
  · rw [← List.count_append, ← List.map_append, List.take_append_drop, hphase, List.map_cons]
    simp [Phase.fresh, Phase.stale, List.count_cons]

/-- a built pool is local to its call -/
theorem Inv.build (h : Inv s) (hc : s.calls[i]? = some c) {key : ℕ} (hphase : c.phase = .build key) :
    Inv { s.goto i c (.enter key s.built.length) with built := s.built ++ [⟨numThreads key, i⟩] } := by
  have hok := h.calls i c hc
  simp only [CallOk, hphase] at hok
  obtain ⟨w, hreq, rfl⟩ := hok
  have m : Moves s { s.goto i c (.enter (clampWorkers w) s.built.length) with
      built := s.built ++ [⟨numThreads (clampWorkers w), i⟩] } i c (.enter (clampWorkers w) s.built.length) := by
    refine ⟨rfl, by simp [hphase, Phase.locked, St.goto], by simp [Phase.locked], List.prefix_append _ _,
      List.suffix_refl _, fun p => ?_⟩
    simp only [St.goto, hphase, Phase.fresh, Phase.stale, List.count_nil, List.length_append, List.length_singleton,
      List.range_succ, List.count_append]
    omega
  refine m.inv h hc h.keys (fun e he => ?_) ⟨w, hreq, rfl, ?_⟩
  · obtain ⟨b, hb⟩ := h.sizes e he
    exact ⟨b, getElem?_of_prefix m.built hb⟩
  · rw [numThreads_clampWorkers]
    exact List.getElem?_concat_length

/-- a clear takes every handle out of the slots -/
theorem Inv.empty (h : Inv s) (hc : s.calls[i]? = some c) (hphase : c.phase = .emptying) :
    Inv { s.goto i c (.leave (.count (s.slots.map Prod.snd).length) (s.slots.map Prod.snd)) with
      slots := [], history := .clear i :: s.history } := by
  have hheld : c.phase.locked = true := by rw [hphase]; rfl
  have hok := h.calls i c hc
  simp only [CallOk, hphase] at hok
  have m : Moves s { s.goto i c (.leave (.count (s.slots.map Prod.snd).length) (s.slots.map Prod.snd)) with
      slots := [], history := .clear i :: s.history } i c
      (.leave (.count (s.slots.map Prod.snd).length) (s.slots.map Prod.snd)) := by
    refine ⟨rfl, h.lock_of_locked hc hheld, fun _ => .inl hheld, List.prefix_refl _, List.suffix_cons _ _, fun p => ?_⟩
    simp only [St.goto, hphase, Phase.fresh, Phase.stale, List.count_nil, List.map_nil]
    omega
  exact m.inv h hc (by simp [keysSince]) (by simp) ⟨hok, List.mem_cons_self⟩

/-- one handle of the stale list is dropped -/
theorem Inv.drop (h : Inv s) (hc : s.calls[i]? = some c) {out : Outcome} {p : ℕ} {stale : List ℕ}
    (hphase : c.phase = .drop out (p :: stale)) :
    Inv { s.goto i c (.drop out stale) with dropped := s.dropped ++ [p] } := by
  have hok := h.calls i c hc
  simp only [CallOk, hphase] at hok
  have m : Moves s { s.goto i c (.drop out stale) with dropped := s.dropped ++ [p] } i c (.drop out stale) := by
    refine ⟨rfl, by simp [hphase, Phase.locked, St.goto], by simp [Phase.locked], List.prefix_refl _,
      List.suffix_refl _, fun q => ?_⟩
    simp only [St.goto, hphase, Phase.fresh, Phase.stale, List.count_nil, List.count_append, List.count_cons]
    omega
  exact m.inv h hc h.keys h.sizes hok

theorem next_inv (h : Inv s) (hc : s.calls[i]? = some c) (ok : Bool) : Inv (next s i c ok) := by
  have hok := h.calls i c hc
  unfold CallOk at hok
  unfold next
  cases hphase : c.phase with
  | look key =>
    rw [hphase] at hok
    exact h.take hc rfl (by rw [hphase]; rfl) (by rw [hphase]; rfl) hok
  | looking key =>
    have hheld : c.phase.locked = true := by rw [hphase]; rfl
    rw [hphase] at hok
    cases hget : get s.slots key with
    | none =>
      simp only [hget]
      refine h.quiet hc ?_ (fun _ => .inl hheld) (by rw [hphase]; rfl) (by rw [hphase]; rfl) hok
      exact h.lock_of_locked hc hheld
    | some r =>
      obtain ⟨w, hreq, rfl⟩ := hok
      have hhit := h.hit hc hheld (by rw [hphase]; rfl) hreq hget
      rw [hphase] at hhit
      simp only [hget]
      exact hhit
  | missed key =>
    rw [hphase] at hok
    exact h.release hc (by rw [hphase]; rfl) rfl (by rw [hphase]; rfl) (by rw [hphase]; rfl) hok
  | build key =>
    cases ok with
    | true => exact h.build hc hphase
    | false =>
      refine h.quiet hc ?_ (by simp [Phase.locked]) (by rw [hphase]; rfl) (by rw [hphase]; rfl) trivial
      simp [hphase, Phase.locked]
  | enter key fresh =>
    rw [hphase] at hok
    exact h.take hc rfl (by rw [hphase]; rfl) (by rw [hphase]; rfl) hok
  | entering key fresh =>
    rw [hphase] at hok
    cases hget : get s.slots key with
    | none =>
      obtain ⟨slots, stale, hins, hinv⟩ := h.insert hc hphase hget
      simp only [hget, hins]
      exact hinv
    | some r =>
      obtain ⟨w, hreq, rfl, -⟩ := hok
      have hhit := h.hit hc (by rw [hphase]; rfl) (by rw [hphase]; rfl) hreq hget
      rw [hphase] at hhit
      simp only [hget]
      exact hhit
  | empty =>
    rw [hphase] at hok
    exact h.take hc rfl (by rw [hphase]; rfl) (by rw [hphase]; rfl) hok
  | emptying => exact h.empty hc hphase
  | leave out stale =>
    rw [hphase] at hok
    exact h.release hc (by rw [hphase]; rfl) rfl (by rw [hphase]; rfl) (by rw [hphase]; rfl) hok
  | drop out stale =>
    cases stale with
    | cons p stale => exact h.drop hc hphase
    | nil =>
      rw [hphase] at hok
      refine h.quiet hc ?_ (by simp [Phase.locked]) (by rw [hphase]; rfl) (by rw [hphase]; rfl) hok
      simp [hphase, Phase.locked]
  | done out | failed | asserted => exact h

end Step

/-- a new call holds nothing -/
theorem Inv.call {s : St} (h : Inv s) (r : Request) : Inv { s with calls := s.calls ++ [⟨r, start r⟩] } := by
  have hfresh : (start r).fresh = [] := by cases r <;> rfl
  have hstale : (start r).stale = [] := by cases r <;> rfl
  have hlocked : (start r).locked = false := by cases r <;> rfl
  have hcall : ∀ {i : ℕ} {c : Call}, (s.calls ++ [⟨r, start r⟩])[i]? = some c →
      s.calls[i]? = some c ∨ c = ⟨r, start r⟩ := by
    intro i c hi
    rcases Nat.lt_or_ge i s.calls.length with hlt | hge
    · rw [List.getElem?_append_left hlt] at hi
      exact .inl hi
    · rw [List.getElem?_append_right hge] at hi
      exact .inr (by simpa using List.mem_of_getElem? hi)
  refine ⟨h.keys, h.sizes, ?_, fun i c hi => ?_, fun i => ?_⟩
  · have hsame : St.handles { s with calls := s.calls ++ [⟨r, start r⟩] } = s.handles := by
      simp [St.handles, hfresh, hstale]
    rw [hsame]
    exact h.handles
  · rcases hcall hi with hi | rfl
    · exact h.calls i c hi
    · cases r with
      | acquire w => exact ⟨w, rfl, rfl⟩
      | clear => rfl
  · refine (h.lock i).trans ⟨fun ⟨c, hi, hc⟩ => ⟨c, getElem?_of_prefix (List.prefix_append _ _) hi, hc⟩, ?_⟩
    rintro ⟨c, hi, hc⟩
    rcases hcall hi with hi | rfl
    · exact ⟨c, hi, hc⟩
    · simp [hlocked] at hc

theorem step_inv {s : St} (h : Inv s) (a : Act) : Inv (step s a) := by
  cases a with
  | call r => exact h.call r
  | next i ok =>
    simp only [step]
    split
    · next c hc => exact next_inv h hc ok
    · exact h

theorem init_inv : Inv init :=
  ⟨rfl, by simp [init], List.Perm.refl _, by simp [init], by simp [init]⟩

theorem run_inv (acts : List Act) : Inv (run acts) := by
  refine List.foldlRecOn acts step init_inv fun s h a _ => step_inv h a

/-! ## One place for each handle -/

section Places

variable {s : St} {p : ℕ}

/-- the part of the handles that a place belongs to -/
def St.part (s : St) : Place → List ℕ
  | .fresh _ => s.calls.flatMap fun c => c.phase.fresh
  | .slot _ => s.slots.map Prod.snd
  | .stale _ _ => s.calls.flatMap fun c => c.phase.stale
  | .dropped _ => s.dropped

theorem Phase.fresh_eq {ph : Phase} (h : p ∈ ph.fresh) : ph.fresh = [p] := by
  cases ph <;> simp_all [Phase.fresh]

theorem St.At.mem_part {pl : Place} (h : s.At p pl) : p ∈ s.part pl := by
  cases pl with
  | fresh i =>
    obtain ⟨c, hc, hp⟩ := h
    exact List.mem_flatMap.2 ⟨c, List.mem_of_getElem? hc, by simp [hp]⟩
  | slot j =>
    obtain ⟨key, hj⟩ := h
    exact List.mem_map.2 ⟨_, List.mem_of_getElem? hj, rfl⟩
  | stale i j =>
    obtain ⟨c, hc, hp⟩ := h
    exact List.mem_flatMap.2 ⟨c, List.mem_of_getElem? hc, List.mem_of_getElem? hp⟩
  | dropped j => exact List.mem_of_getElem? h

theorem exists_place (h : p ∈ s.handles) : ∃ pl, s.At p pl := by
  simp only [St.handles, List.mem_append] at h
  rcases h with ((h | h) | h) | h
  · obtain ⟨⟨key, q⟩, he, rfl⟩ := List.mem_map.1 h
    obtain ⟨j, hj⟩ := List.mem_iff_getElem?.1 he
    exact ⟨.slot j, key, hj⟩
  · obtain ⟨c, hc, hp⟩ := List.mem_flatMap.1 h
    obtain ⟨i, hi⟩ := List.mem_iff_getElem?.1 hc
    exact ⟨.fresh i, c, hi, Phase.fresh_eq hp⟩
  · obtain ⟨c, hc, hp⟩ := List.mem_flatMap.1 h
    obtain ⟨i, hi⟩ := List.mem_iff_getElem?.1 hc
    obtain ⟨j, hj⟩ := List.mem_iff_getElem?.1 hp
    exact ⟨.stale i j, c, hi, hj⟩
  · obtain ⟨j, hj⟩ := List.mem_iff_getElem?.1 h
    exact ⟨.dropped j, hj⟩

theorem index_unique {α : Type} {l : List α} (hnd : l.Nodup) {i j : ℕ} {x : α} (hi : l[i]? = some x)
    (hj : l[j]? = some x) : i = j :=
  (List.getElem?_inj (List.getElem?_eq_some_iff.1 hi).1 hnd).1 (hi.trans hj.symm)

/-- two calls of a list whose holdings do not repeat cannot hold the same handle -/
theorem holder_unique {f : Call → List ℕ} {calls : List Call} (hnd : (calls.flatMap f).Nodup) {i j : ℕ} {c d : Call}
    (hi : calls[i]? = some c) (hj : calls[j]? = some d) (hc : p ∈ f c) (hd : p ∈ f d) : i = j := by
  have hpair := (List.nodup_flatMap.1 hnd).2
  rw [List.pairwise_iff_getElem] at hpair
  obtain ⟨hil, rfl⟩ := List.getElem?_eq_some_iff.1 hi
  obtain ⟨hjl, rfl⟩ := List.getElem?_eq_some_iff.1 hj
  rcases lt_trichotomy i j with hlt | heq | hgt
  · exact absurd hd (hpair i j hil hjl hlt hc)
  · exact heq
  · exact absurd hc (hpair j i hjl hil hgt hd)

theorem place_unique (hnd : s.handles.Nodup) {pl pl' : Place} (h : s.At p pl) (h' : s.At p pl') : pl = pl' := by
  have hone : s.handles.count p ≤ 1 := List.nodup_iff_count_le_one.1 hnd p
  have hpos := List.count_pos_iff.2 h.mem_part
  have hpos' := List.count_pos_iff.2 h'.mem_part
  simp only [St.handles, List.nodup_append, List.count_append] at hnd hone
  obtain ⟨⟨⟨hslots, hfresh, -⟩, hstale, -⟩, hdropped, -⟩ := hnd
  -- places of two kinds count twice; within one kind the lists do not repeat
  cases pl <;> cases pl' <;> simp only [St.part] at hpos hpos' <;> first | omega | skip
  case fresh.fresh i i' =>
    obtain ⟨c, hc, hp⟩ := h
    obtain ⟨d, hd, hq⟩ := h'
    rw [holder_unique hfresh hc hd (p := p) (by simp [hp]) (by simp [hq])]
  case slot.slot j j' =>
    obtain ⟨key, hj⟩ := h
    obtain ⟨key', hj'⟩ := h'
    rw [index_unique hslots (i := j) (j := j') (x := p) (by simp [hj]) (by simp [hj'])]
  case stale.stale i j i' j' =>
    obtain ⟨c, hc, hp⟩ := h
    obtain ⟨d, hd, hq⟩ := h'
    obtain rfl := holder_unique hstale hc hd (List.mem_of_getElem? hp) (List.mem_of_getElem? hq)
    rw [hc, Option.some.injEq] at hd
    subst hd
    rw [index_unique ((List.nodup_flatMap.1 hstale).1 c (List.mem_of_getElem? hc)) hp hq]
  case dropped.dropped j j' => rw [index_unique hdropped h h']

theorem Inv.place (h : Inv s) (hp : p < s.built.length) : ∃! pl, s.At p pl := by
  obtain ⟨pl, hpl⟩ := exists_place (h.handles.mem_iff.2 (List.mem_range.2 hp))
  exact ⟨pl, hpl, fun _ h' => place_unique (h.handles.nodup_iff.2 List.nodup_range) h' hpl⟩

/-- a local handle is with the call that built the pool -/
theorem Inv.builder (h : Inv s) {i : ℕ} (hp : s.At p (.fresh i)) : ∃ n, s.built[p]? = some ⟨n, i⟩ := by
  obtain ⟨⟨r, ph⟩, hc, hp⟩ := hp
  have hok := h.calls i _ hc
  cases ph with
  | enter key q | entering key q =>
    obtain ⟨w, -, -, hb⟩ := hok
    simp only [Phase.fresh, List.cons.injEq, and_true] at hp
    exact ⟨key, hp ▸ hb⟩
  | _ => simp [Phase.fresh] at hp

end Places

/-! ## Drops -/

section Drops

variable {s : St} {i : ℕ}

/-- a handle is dropped only by a call that has released the mutex and works off its stale list -/
theorem Inv.drops (h : Inv s) (a : Act) (hd : (step s a).dropped ≠ s.dropped) :
    ∃ i ok c out p stale, a = .next i ok ∧ s.calls[i]? = some c ∧ c.phase = .drop out (p :: stale) ∧ s.lock ≠ some i ∧
      (step s a).dropped = s.dropped ++ [p] := by
  cases a with
  | call r => exact absurd rfl hd
  | next i ok =>
    simp only [step] at hd ⊢
    cases hc : s.calls[i]? with
    | none => rw [hc] at hd; exact absurd rfl hd
    | some c =>
      simp only [hc] at hd ⊢
      unfold next at hd ⊢
      cases hphase : c.phase with
      | drop out stale =>
        cases stale with
        | nil => simp [hphase, St.goto] at hd
        | cons p stale =>
          refine ⟨i, ok, c, out, p, stale, rfl, hc, hphase, fun hlock => ?_, rfl⟩
          obtain ⟨d, hd', hl⟩ := (h.lock i).1 hlock
          rw [hc, Option.some.injEq] at hd'
          subst hd'
          simp [hphase, Phase.locked] at hl
      | entering key fresh =>
        cases hget : get s.slots key with
        | some r => simp [hphase, hget, St.commit, St.goto] at hd
        | none =>
          obtain ⟨slots, stale, hins, -⟩ := h.insert hc hphase hget
          simp [hphase, hget, hins, St.commit, St.goto] at hd
      | looking key =>
        cases hget : get s.slots key <;> simp [hphase, hget, St.commit, St.goto] at hd
      | build key => cases ok <;> simp [hphase, St.goto] at hd
      | look key | enter key fresh | empty =>
        simp only [hphase, St.take, St.goto] at hd
        split_ifs at hd <;> exact absurd rfl hd
      | missed key | emptying | leave out stale | done out | failed | asserted =>
        simp [hphase, St.goto] at hd

/-- an act of call `i` -/
def Act.of (i : ℕ) : Act → Bool
  | .call _ => false
  | .next j _ => j == i

theorem next_calls_ne {j : ℕ} (hij : j ≠ i) (c : Call) (ok : Bool) : (next s j c ok).calls[i]? = s.calls[i]? := by
  unfold next
  split
  case h_2 key _ => cases get s.slots key <;> simp [St.commit, St.goto, List.getElem?_set_ne hij]
  case h_4 => cases ok <;> simp [St.goto, List.getElem?_set_ne hij]
  case h_6 key fresh _ =>
    cases get s.slots key with
    | some r => simp [St.commit, St.goto, List.getElem?_set_ne hij]
    | none => cases insert s.slots key fresh <;> simp [St.commit, St.goto, List.getElem?_set_ne hij]
  all_goals
    first
    | rfl
    | simp [St.goto, List.getElem?_set_ne hij]
    | simp only [St.take, St.goto]; split_ifs <;> simp [List.getElem?_set_ne hij]

/-- the steps of others leave call `i` where it is -/
theorem step_calls_other {a : Act} (ha : a.of i = false) {c : Call} (hc : s.calls[i]? = some c) :
    (step s a).calls[i]? = some c := by
  cases a with
  | call r => exact getElem?_of_prefix (List.prefix_append _ _) hc
  | next j ok =>
    have hij : j ≠ i := by simpa [Act.of] using ha
    simp only [step]
    split
    · rw [next_calls_ne hij, hc]
    · exact hc

theorem Inv.dropped_mono (h : Inv s) (a : Act) {p : ℕ} (hp : p ∈ s.dropped) : p ∈ (step s a).dropped := by
  by_cases hd : (step s a).dropped = s.dropped
  · rwa [hd]
  · obtain ⟨-, -, -, -, q, -, -, -, -, -, hq⟩ := h.drops a hd
    rw [hq]
    exact List.mem_append_left _ hp

/-- what is left of a call that has committed: its own steps to its end, and the handles it still has to drop -/
inductive Closing (s : St) (i : ℕ) (r : Request) (out : Outcome) (l : List ℕ) : ℕ → Prop
  | leave : s.calls[i]? = some ⟨r, .leave out l⟩ → Closing s i r out l (l.length + 2)
  | drop (stale : List ℕ) : s.calls[i]? = some ⟨r, .drop out stale⟩ → (∀ p ∈ l, p ∈ stale ∨ p ∈ s.dropped) →
      Closing s i r out l (stale.length + 1)
  | done : s.calls[i]? = some ⟨r, .done out⟩ → (∀ p ∈ l, p ∈ s.dropped) → Closing s i r out l 0

theorem Closing.other {r : Request} {out : Outcome} {l : List ℕ} {n : ℕ} (h : Closing s i r out l n) (hi : Inv s)
    {a : Act} (ha : a.of i = false) : Closing (step s a) i r out l n := by
  cases h with
  | leave hc => exact .leave (step_calls_other ha hc)
  | drop stale hc hl =>
    exact .drop stale (step_calls_other ha hc) fun p hp => (hl p hp).imp_right (hi.dropped_mono a)
  | done hc hl => exact .done (step_calls_other ha hc) fun p hp => hi.dropped_mono a (hl p hp)

/-- each own step of a closing call brings it nearer to its end -/
theorem Closing.own {r : Request} {out : Outcome} {l : List ℕ} {n : ℕ} (h : Closing s i r out l n) {a : Act}
    (ha : a.of i = true) : Closing (step s a) i r out l (n - 1) := by
  cases a with
  | call r => simp [Act.of] at ha
  | next j ok =>
    obtain rfl : j = i := by simpa [Act.of] using ha
    cases h with
    | leave hc =>
      have hlt := (List.getElem?_eq_some_iff.1 hc).1
      simp only [step, hc, next]
      exact .drop l (List.getElem?_set_self hlt) fun p hp => .inl hp
    | drop stale hc hl =>
      have hlt := (List.getElem?_eq_some_iff.1 hc).1
      cases stale with
      | nil =>
        simp only [step, hc, next]
        exact .done (List.getElem?_set_self hlt) fun p hp => (hl p hp).resolve_left (by simp)
      | cons q stale =>
        simp only [step, hc, next]
        refine .drop stale (List.getElem?_set_self hlt) fun p hp => ?_
        rcases hl p hp with hmem | hmem
        · rcases List.mem_cons.1 hmem with rfl | hmem
          · exact .inr (by simp)
          · exact .inl hmem
        · exact .inr (List.mem_append_left _ hmem)
    | done hc hl =>
      simp only [step, hc, next]
      exact .done hc hl

/-- **A closing call ends.** Whatever the others do, after enough steps of its own it has returned and its whole stale list is
dropped. -/
theorem finishes {r : Request} {out : Outcome} {l : List ℕ} {n : ℕ} (more : List Act) (hi : Inv s)
    (h : Closing s i r out l n) (hn : n ≤ more.countP (Act.of i)) : Closing (more.foldl step s) i r out l 0 := by
  induction more generalizing s n with
  | nil =>
    obtain rfl : n = 0 := by simpa using hn
    exact h
  | cons a more ih =>
    rw [List.foldl_cons]
    by_cases ha : a.of i = true
    · rw [List.countP_cons_of_pos ha] at hn
      exact ih (step_inv hi a) (h.own ha) (by omega)
    · rw [List.countP_cons_of_neg ha] at hn
      exact ih (step_inv hi a) (h.other hi (by simpa using ha)) hn

/-- the handles of a stale list are dropped by the call that has them -/
theorem Inv.stale_dropped (h : Inv s) {c : Call} (hc : s.calls[i]? = some c) (more : List Act)
    (hmore : c.phase.stale.length + 2 ≤ more.countP (Act.of i)) :
    ∀ p ∈ c.phase.stale, p ∈ (more.foldl step s).dropped := by
  obtain ⟨r, ph⟩ := c
  cases ph with
  | leave out l =>
    cases finishes more h (.leave hc) hmore with
    | done _ hl => exact hl
  | drop out l =>
    have hn : l.length + 1 ≤ more.countP (Act.of i) := by
      simp only [Phase.stale] at hmore
      omega
    cases finishes more h (.drop l hc fun p hp => .inl hp) hn with
    | done _ hl => exact hl
  | _ => simp [Phase.stale]

end Drops

/-! ## Calls end -/

namespace Phase

/-- the next step takes the mutex -/
def waits : Phase → Bool
  | look _ | enter _ _ | empty => true
  | _ => false

/-- own steps of the holder until the mutex is free again -/
def toRelease : Phase → ℕ
  | looking _ | entering _ _ | emptying => 2
  | missed _ | leave _ _ => 1
  | _ => 0

/-- own steps until the call has returned, with a build that succeeds -/
def toGo : Phase → ℕ
  | look _ => 9
  | looking _ => 8
  | missed _ => 7
  | build _ => 6
  | enter _ _ => 5
  | entering _ _ => 4
  | empty => cacheCapacity + 4
  | emptying => cacheCapacity + 3
  | leave _ stale => stale.length + 2
  | drop _ stale => stale.length + 1
  | done _ | failed | asserted => 0

end Phase

/-- call `i` waits for the mutex while another call has it -/
def St.blocked (s : St) (i : ℕ) : Bool :=
  match s.calls[i]? with
  | some c => c.phase.waits && s.lock.isSome
  | none => false

/-- the steps of call `i` in a run that are not spent waiting for the mutex -/
def turns (i : ℕ) : St → List Act → ℕ
  | _, [] => 0
  | s, a :: acts => (if a.of i && !s.blocked i then 1 else 0) + turns i (step s a) acts

section Ends

variable {s : St} {i : ℕ} {c : Call}

theorem goto_calls (hc : s.calls[i]? = some c) (ph : Phase) : (s.goto i c ph).calls[i]? = some ⟨c.request, ph⟩ :=
  List.getElem?_set_self (List.getElem?_eq_some_iff.1 hc).1

theorem Inv.slots_length (h : Inv s) : s.slots.length ≤ cacheCapacity := by
  have hlen := congrArg List.length h.keys
  rw [List.length_map] at hlen
  rw [hlen]
  exact List.length_take_le _ _

/-- a step spent waiting changes nothing -/
theorem step_blocked (hb : s.blocked i = true) (ok : Bool) : step s (.next i ok) = s := by
  unfold St.blocked at hb
  cases hc : s.calls[i]? with
  | none => simp [hc] at hb
  | some c =>
    obtain ⟨r, ph⟩ := c
    simp only [hc, Bool.and_eq_true] at hb
    obtain ⟨hwaits, hlock⟩ := hb
    have htaken : s.lock ≠ none := Option.isSome_iff_ne_none.1 hlock
    cases ph with
    | look key | enter key p | empty => simp [step, hc, next, St.take, htaken]
    | _ => simp [Phase.waits] at hwaits

/-- a waiting call that is not blocked gets the mutex -/
theorem take_free (hc : s.calls[i]? = some c) (hwaits : c.phase.waits = true) (hb : s.blocked i = false) (ph : Phase) :
    (s.take i c ph).calls[i]? = some ⟨c.request, ph⟩ := by
  have hnone : s.lock = none := by simpa [St.blocked, hc, hwaits] using hb
  rw [St.take, if_pos hnone]
  exact goto_calls hc ph

/-- every turn brings a call nearer to its end -/
theorem Inv.turn (h : Inv s) (hc : s.calls[i]? = some c) (hb : s.blocked i = false) (hfail : c.phase ≠ .failed) :
    ∃ ph, (step s (.next i true)).calls[i]? = some ⟨c.request, ph⟩ ∧ ph.toGo ≤ c.phase.toGo - 1 ∧ ph ≠ .failed := by
  simp only [step, hc]
  unfold next
  cases hphase : c.phase with
  | look key => exact ⟨_, take_free hc (by rw [hphase]; rfl) hb _, le_rfl, by simp⟩
  | looking key =>
    dsimp only
    split
    · exact ⟨_, goto_calls hc _, by simp [Phase.toGo], by simp⟩
    · exact ⟨_, goto_calls hc _, le_rfl, by simp⟩
  | missed key => exact ⟨_, goto_calls hc _, le_rfl, by simp⟩
  | build key => exact ⟨_, goto_calls hc _, le_rfl, by simp⟩
  | enter key fresh => exact ⟨_, take_free hc (by rw [hphase]; rfl) hb _, le_rfl, by simp⟩
  | entering key fresh =>
    cases hget : get s.slots key with
    | some r =>
      simp only [hget]
      exact ⟨_, goto_calls hc _, by simp [Phase.toGo], by simp⟩
    | none =>
      -- at most one pool falls out of a cache that kept its capacity
      have hlen := h.slots_length
      simp only [hget, insert_eq (get_eq_none hget)]
      refine ⟨_, goto_calls hc _, ?_, by simp⟩
      simp only [Phase.toGo, List.length_map, List.length_drop, List.length_cons]
      omega
  | empty => exact ⟨_, take_free hc (by rw [hphase]; rfl) hb _, le_rfl, by simp⟩
  | emptying =>
    have hlen := h.slots_length
    refine ⟨_, goto_calls hc _, ?_, by simp⟩
    simp only [Phase.toGo, clear, List.length_map]
    omega
  | leave out stale => exact ⟨_, goto_calls hc _, by simp [Phase.toGo], by simp⟩
  | drop out stale =>
    cases stale with
    | nil => exact ⟨_, goto_calls hc _, le_rfl, by simp⟩
    | cons p stale => exact ⟨_, goto_calls hc _, by simp [Phase.toGo], by simp⟩
  | done out => exact ⟨.done out, by rw [hc, ← hphase], le_rfl, by simp⟩
  | failed => exact absurd hphase hfail
  | asserted =>
    have hok := h.calls i c hc
    simp [CallOk, hphase] at hok

/-- **A call ends.** Whatever the others do, a call whose build does not fail has returned after enough turns of its own. -/
theorem Inv.ends (h : Inv s) (hc : s.calls[i]? = some c) (hfail : c.phase ≠ .failed) (more : List Act)
    (hok : .next i false ∉ more) (hn : c.phase.toGo ≤ turns i s more) :
    ∃ out, (more.foldl step s).calls[i]? = some ⟨c.request, .done out⟩ := by
  induction more generalizing s c with
  | nil =>
    have hcall := h.calls i c hc
    obtain ⟨r, ph⟩ := c
    cases ph with
    | done out => exact ⟨out, hc⟩
    | failed => exact absurd rfl hfail
    | asserted => exact absurd hcall (by simp [CallOk])
    | _ => simp [turns, Phase.toGo] at hn
  | cons a more ih =>
    rw [List.mem_cons, not_or] at hok
    rw [turns] at hn
    have h' := step_inv h a
    by_cases ha : a.of i = true
    · obtain rfl : a = .next i true := by
        cases a with
        | call r => simp [Act.of] at ha
        | next j ok =>
          obtain rfl : j = i := by simpa [Act.of] using ha
          cases ok with
          | true => rfl
          | false => exact absurd rfl hok.1
      cases hb : s.blocked i with
      | true =>
        rw [hb, Bool.not_true, Bool.and_false, if_neg Bool.false_ne_true, Nat.zero_add, step_blocked hb] at hn
        rw [List.foldl_cons, step_blocked hb]
        exact ih h hc hfail hok.2 hn
      | false =>
        rw [ha, hb, Bool.not_false, Bool.and_true, if_pos rfl] at hn
        obtain ⟨ph, hc', hlt, hfail'⟩ := h.turn hc hb hfail
        exact ih (c := ⟨c.request, ph⟩) h' hc' hfail' hok.2 (hlt.trans (by omega))
    · have hother : a.of i = false := by simpa using ha
      rw [hother, Bool.false_and, if_neg Bool.false_ne_true, Nat.zero_add] at hn
      exact ih h' (step_calls_other hother hc) hfail hok.2 hn

theorem Phase.toGo_le (ph : Phase) : ph.toGo ≤ ph.stale.length + 9 := by
  cases ph <;> simp [Phase.toGo, Phase.stale, cacheCapacity]

/-- an own step of the holder releases the mutex or leaves one step to its release -/
theorem holder_step (hc : s.calls[i]? = some c) (hheld : c.phase.locked = true) (ok : Bool) :
    (step s (.next i ok)).lock = none ∨
    ∃ c', (step s (.next i ok)).calls[i]? = some c' ∧ c'.phase.locked = true ∧ c'.phase.toRelease < c.phase.toRelease := by
  simp only [step, hc]
  unfold next
  cases hphase : c.phase with
  | looking key =>
    dsimp only
    split
    · exact .inr ⟨_, goto_calls hc _, rfl, Nat.lt_add_one 1⟩
    · exact .inr ⟨_, goto_calls hc _, rfl, Nat.lt_add_one 1⟩
  | entering key fresh =>
    cases hget : get s.slots key with
    | some r =>
      simp only [hget]
      exact .inr ⟨_, goto_calls hc _, rfl, Nat.lt_add_one 1⟩
    | none =>
      simp only [hget, insert_eq (get_eq_none hget)]
      exact .inr ⟨_, goto_calls hc _, rfl, Nat.lt_add_one 1⟩
  | emptying => exact .inr ⟨_, goto_calls hc _, rfl, Nat.lt_add_one 1⟩
  | missed key | leave out stale => exact .inl rfl
  | _ => simp [hphase, Phase.locked] at hheld

/-- the holder releases the mutex with its second own step at the latest, whatever the others do -/
theorem Inv.releases (h : Inv s) (hc : s.calls[i]? = some c) (hheld : c.phase.locked = true) (more : List Act)
    (hn : c.phase.toRelease ≤ more.countP (Act.of i)) : ∃ k ≤ more.length, ((more.take k).foldl step s).lock = none := by
  induction more generalizing s c with
  | nil =>
    obtain ⟨r, ph⟩ := c
    cases ph <;> simp [Phase.locked] at hheld <;> simp [Phase.toRelease] at hn
  | cons a more ih =>
    by_cases ha : a.of i = true
    · obtain ⟨ok, rfl⟩ : ∃ ok, a = .next i ok := by
        cases a with
        | call r => simp [Act.of] at ha
        | next j ok => exact ⟨ok, by rw [show j = i by simpa [Act.of] using ha]⟩
      rw [List.countP_cons_of_pos ha] at hn
      rcases holder_step hc hheld ok with hnone | ⟨c', hc', hheld', hlt⟩
      · exact ⟨1, by simp, hnone⟩
      · obtain ⟨k, hk, hfree⟩ := ih (step_inv h _) hc' hheld' (by omega)
        exact ⟨k + 1, by simpa using hk, hfree⟩
    · rw [List.countP_cons_of_neg ha] at hn
      obtain ⟨k, hk, hfree⟩ := ih (step_inv h a) (step_calls_other (by simpa using ha) hc) hheld hn
      exact ⟨k + 1, by simpa using hk, hfree⟩

/-- a blocked call waits for a holder that is on its way out -/
theorem Inv.blocked (h : Inv s) (hb : s.blocked i = true) :
    ∃ j, j ≠ i ∧ s.lock = some j ∧ s.blocked j = false ∧ ∀ more : List Act, 2 ≤ more.countP (Act.of j) →
      ∃ k ≤ more.length, ((more.take k).foldl step s).lock = none := by
  have hwaits : ∀ ph : Phase, ph.locked = true → ph.waits = false := by
    intro ph hph
    cases ph <;> simp_all [Phase.locked, Phase.waits]
  have htwo : ∀ ph : Phase, ph.toRelease ≤ 2 := by
    intro ph
    cases ph <;> simp [Phase.toRelease]
  have hlock : s.lock.isSome = true := by
    unfold St.blocked at hb
    split at hb
    · exact (Bool.and_eq_true_iff.1 hb).2
    · exact absurd hb Bool.false_ne_true
  obtain ⟨j, hj⟩ := Option.isSome_iff_exists.1 hlock
  obtain ⟨c, hc, hheld⟩ := (h.lock j).1 hj
  have hfree : s.blocked j = false := by simp [St.blocked, hc, hwaits _ hheld]
  refine ⟨j, ?_, hj, hfree, fun more hmore => h.releases hc hheld more ((htwo _).trans hmore)⟩
  rintro rfl
  exact absurd (hfree.symm.trans hb) Bool.false_ne_true

end Ends

/-! ## The cache -/

/-- **The recycling cache, for every order of steps.** The cached keys are the latest committed ones since the last clear, most
recent first and each once, so no insertion trips over its assertion. An acquire returns a pool, with the clamped number of
workers, that was in the cache at the commit; a clear that has returned has cleared. A call whose build succeeds returns within
nine turns and one for each handle it still has to drop, and one that waits for the mutex waits for a holder that releases it
with its second step at the latest. The cache's own handle of every pool built is in exactly one place; a local one is with its
builder; a drop is made by a call that does not hold the mutex, out of its stale list, and every stale list is dropped in the
end. -/
theorem recycling (acts : List Act) :
    let s := run acts
    s.slots.map Prod.fst = (keysSince s.history).eraseDups.take cacheCapacity ∧ (s.slots.map Prod.fst).Nodup ∧
    (∀ c ∈ s.calls, c.phase ≠ .asserted) ∧
    (∀ i w out, s.calls[i]? = some ⟨.acquire w, .done out⟩ → ∃ p slots builder, out = .pool p ∧
      s.built[p]? = some ⟨clampWorkers w, builder⟩ ∧ .commit i (clampWorkers w) p slots ∈ s.history ∧
      (clampWorkers w, p) ∈ slots) ∧
    (∀ i out, s.calls[i]? = some ⟨.clear, .done out⟩ → ∃ n, out = .count n ∧ .clear i ∈ s.history) ∧
    (∀ i c, s.calls[i]? = some c → c.phase ≠ .failed → ∀ more : List Act, .next i false ∉ more →
      c.phase.stale.length + 9 ≤ turns i s more → ∃ out, (more.foldl step s).calls[i]? = some ⟨c.request, .done out⟩) ∧
    (∀ i, s.blocked i = true → ∃ j, j ≠ i ∧ s.lock = some j ∧ s.blocked j = false ∧
      ∀ more : List Act, 2 ≤ more.countP (Act.of j) → ∃ k ≤ more.length, ((more.take k).foldl step s).lock = none) ∧
    (∀ p < s.built.length, ∃! pl, s.At p pl) ∧
    (∀ p i, s.At p (.fresh i) → ∃ n, s.built[p]? = some ⟨n, i⟩) ∧
    (∀ a, (step s a).dropped ≠ s.dropped → ∃ i ok c out p stale, a = .next i ok ∧ s.calls[i]? = some c ∧
      c.phase = .drop out (p :: stale) ∧ s.lock ≠ some i ∧ (step s a).dropped = s.dropped ++ [p]) ∧
    ∀ i c, s.calls[i]? = some c → ∀ more : List Act, c.phase.stale.length + 2 ≤ more.countP (Act.of i) →
      ∀ p ∈ c.phase.stale, p ∈ (more.foldl step s).dropped := by
  have h := run_inv acts
  refine ⟨h.keys, h.nodup, fun c hc hphase => ?_, fun i w out hc => ?_, fun i out hc => ?_,
    fun i c hc hfail more hok hn => h.ends hc hfail more hok (c.phase.toGo_le.trans hn), fun i hb => h.blocked hb,
    fun p hp => h.place hp, fun p i hp => h.builder hp, h.drops, fun i c hc more hmore => h.stale_dropped hc more hmore⟩
  · obtain ⟨i, hi⟩ := List.mem_iff_getElem?.1 hc
    have hok := h.calls i c hi
    simp [CallOk, hphase] at hok
  · have hserved : Served _ _ i (.acquire w) out := h.calls i _ hc
    cases out with
    | pool p =>
      obtain ⟨v, slots, hr, ⟨b, hb⟩, hmem, hin⟩ := hserved
      cases hr
      exact ⟨p, slots, b, rfl, hb, hmem, hin⟩
    | count n => exact absurd hserved.1 (by simp)
  · have hserved : Served _ _ i .clear out := h.calls i _ hc
    cases out with
    | pool p =>
      obtain ⟨v, slots, hr, -⟩ := hserved
      cases hr
    | count n => exact ⟨n, rfl, hserved.2⟩

/-- two calls that race for one size: both have built, and the first to come back has the mutex -/
def race : List Act :=
  [.call (.acquire 3), .call (.acquire 3)] ++ List.replicate 4 (.next 0 true) ++ List.replicate 5 (.next 1 true)

/-- In the race each of the two pools is in one place, the call that lost the mutex waits for one that releases it, and the one
that has it returns within nine turns. In the end the second to enter has the pool of the first, which was in the cache. -/
theorem recycling_race :
    let s := run race
    let s' := run (race ++ List.replicate 4 (.next 1 true) ++ List.replicate 5 (.next 0 true))
    s.calls.map Call.phase = [.enter 3 0, .entering 3 1] ∧ (∃! pl, s.At 0 pl) ∧ (∃! pl, s.At 1 pl) ∧
    (∃ j, j ≠ 0 ∧ s.lock = some j ∧ s.blocked j = false ∧
      ∀ more : List Act, 2 ≤ more.countP (Act.of j) → ∃ k ≤ more.length, ((more.take k).foldl step s).lock = none) ∧
    (∃ out, ((List.replicate 9 (.next 1 true)).foldl step s).calls[1]? = some ⟨.acquire 3, .done out⟩) ∧
    s'.dropped = [0] ∧ s'.calls.map Call.phase = [.done (.pool 1), .done (.pool 1)] ∧
    ∃ p slots builder, Outcome.pool 1 = .pool p ∧ s'.built[p]? = some ⟨clampWorkers 3, builder⟩ ∧
      .commit 0 (clampWorkers 3) p slots ∈ s'.history ∧ (clampWorkers 3, p) ∈ slots := by
  obtain ⟨-, -, -, -, -, hends, hblocked, hplaces, -⟩ := recycling race
  obtain ⟨-, -, -, hpool, -⟩ :=
    recycling (race ++ List.replicate 4 (.next 1 true) ++ List.replicate 5 (.next 0 true))
  refine ⟨by decide, hplaces 0 (by decide), hplaces 1 (by decide), hblocked 0 (by decide), ?_, by decide, by decide, ?_⟩
  · exact hends 1 ⟨.acquire 3, .entering 3 1⟩ (by decide) (by decide) _ (by decide) (by decide)
  · exact hpool 0 3 (.pool 1) (by decide)

end YouPipe.PoolCache
