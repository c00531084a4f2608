/-
Work-stealing deques with a bound, as the sequential object: every party owns one, puts items at its end and takes the youngest; any
other party takes a run of the oldest, keeps the youngest of these and moves the others to its own deque. A history is a list of
events, each at the moment it takes effect. `Accepts.conserved`: in every history, what was put in is what came out together with
what is still there, item for item.
-/
import Mathlib.Tactic

namespace YouPipe.Deques

inductive Event (T : Type)
  | push (i : ℕ) (x : T)
  | full (i : ℕ)
  | pop (i : ℕ) (x : T)
  | empty (i : ℕ)
  /-- the popped item is out of its place -/
  | got (i : ℕ) (x : T)
  /-- `i` takes `xs` out of the deque of `j` -/
  | book (i j : ℕ) (xs : List T)
  /-- `i` finds nothing in the deque of `j` -/
  | bare (i j : ℕ)
  /-- `i` moves what it took to its own deque, all but the last item -/
  | land (i : ℕ) (xs : List T)
  /-- ... and has the last item; the places in the deque of `j` are free -/
  | stolen (i j : ℕ) (x : T)
deriving DecidableEq, Repr

structure Spec (T : Type) where
  deque : ℕ → List T
  /-- what a party has taken and not yet put anywhere -/
  hand : ℕ → List T
  /-- the places of a deque that a thief still reads -/
  busy : ℕ → ℕ

variable {T : Type} {cap n : ℕ} {log : List (Event T)} {q q' : Spec T}

inductive Allows (cap : ℕ) : Spec T → Event T → Spec T → Prop
  | push (q : Spec T) (i : ℕ) (x : T) (room : (q.deque i).length + q.busy i < cap) :
      Allows cap q (.push i x) { q with deque := Function.update q.deque i (q.deque i ++ [x]) }
  | full (q : Spec T) (i : ℕ) (full : cap ≤ (q.deque i).length + q.busy i) : Allows cap q (.full i) q
  | pop (q : Spec T) (i : ℕ) (x : T) (rest : List T) (youngest : q.deque i = rest ++ [x]) (none : q.hand i = []) :
      Allows cap q (.pop i x) { q with deque := Function.update q.deque i rest, hand := Function.update q.hand i [x] }
  | empty (q : Spec T) (i : ℕ) (empty : q.deque i = []) : Allows cap q (.empty i) q
  | got (q : Spec T) (i : ℕ) (x : T) (held : q.hand i = [x]) :
      Allows cap q (.got i x) { q with hand := Function.update q.hand i [] }
  | book (q : Spec T) (i j : ℕ) (xs rest : List T) (other : i ≠ j) (some : xs ≠ []) (oldest : q.deque j = xs ++ rest)
      (none : q.hand i = []) (free : q.busy j = 0) :
      Allows cap q (.book i j xs)
        ⟨Function.update q.deque j rest, Function.update q.hand i xs, Function.update q.busy j xs.length⟩
  | bare (q : Spec T) (i j : ℕ) (empty : q.deque j = []) : Allows cap q (.bare i j) q
  | land (q : Spec T) (i : ℕ) (xs : List T) (x : T) (held : q.hand i = xs ++ [x])
      (room : (q.deque i).length + q.busy i + xs.length ≤ cap) :
      Allows cap q (.land i xs)
        { q with deque := Function.update q.deque i (q.deque i ++ xs), hand := Function.update q.hand i [x] }
  | stolen (q : Spec T) (i j : ℕ) (x : T) (held : q.hand i = [x]) :
      Allows cap q (.stolen i j x) { q with hand := Function.update q.hand i [], busy := Function.update q.busy j 0 }

inductive Accepts (cap : ℕ) : List (Event T) → Spec T → Prop
  | nil : Accepts cap [] ⟨fun _ => [], fun _ => [], fun _ => 0⟩
  | snoc {log : List (Event T)} {q q' : Spec T} {e : Event T} :
      Accepts cap log q → Allows cap q e q' → Accepts cap (log ++ [e]) q'

/-! ## What a history says -/

def Event.party : Event T → ℕ
  | .push i _ => i
  | .full i => i
  | .pop i _ => i
  | .empty i => i
  | .got i _ => i
  | .book i _ _ => i
  | .bare i _ => i
  | .land i _ => i
  | .stolen i _ _ => i

/-- what the parties put in -/
def pushed (log : List (Event T)) : List T :=
  log.flatMap fun
    | .push _ x => [x]
    | _ => []

/-- what the parties got out -/
def taken (log : List (Event T)) : List T :=
  log.flatMap fun
    | .got _ x => [x]
    | .stolen _ _ x => [x]
    | _ => []

/-- the items of the first `n` parties -/
def Spec.all (q : Spec T) (n : ℕ) : Multiset T :=
  ∑ i ∈ Finset.range n, ((q.deque i : Multiset T) + (q.hand i : Multiset T))

/-- only party `i` has other items: it lost `a` and got `b` -/
theorem Spec.all_step {i : ℕ} {a b : Multiset T} (hi : i < n) (hself : (q'.deque i + q'.hand i + a : Multiset T) = q.deque i + q.hand i + b)
    (hrest : ∀ k, k ≠ i → q'.deque k = q.deque k ∧ q'.hand k = q.hand k) : q'.all n + a = q.all n + b := by
  have hmem := Finset.mem_range.2 hi
  have hsame : ∑ k ∈ (Finset.range n).erase i, ((q'.deque k : Multiset T) + (q'.hand k : Multiset T)) =
      ∑ k ∈ (Finset.range n).erase i, ((q.deque k : Multiset T) + (q.hand k : Multiset T)) :=
    Finset.sum_congr rfl fun k hk => by rw [(hrest k (Finset.ne_of_mem_erase hk)).1, (hrest k (Finset.ne_of_mem_erase hk)).2]
  unfold Spec.all
  rw [← Finset.add_sum_erase _ _ hmem, ← Finset.add_sum_erase _ (fun k => (q.deque k : Multiset T) + (q.hand k : Multiset T)) hmem,
    hsame, add_right_comm, hself, add_right_comm]

theorem Accepts.busy_le (h : Accepts cap log q) (i : ℕ) : (q.deque i).length + q.busy i ≤ cap := by
  induction h with
  | nil => exact Nat.zero_le cap
  | snoc _ ha ih =>
    cases ha with
    | push k x room =>
      by_cases hk : i = k
      · subst hk
        simp only [Function.update_self, List.length_append, List.length_singleton]
        omega
      · simpa [Function.update_of_ne hk] using ih
    | full k full => exact ih
    | pop k x rest youngest none =>
      by_cases hk : i = k
      · subst hk
        rw [youngest, List.length_append, List.length_singleton] at ih
        simp only [Function.update_self]
        omega
      · simpa [Function.update_of_ne hk] using ih
    | empty k empty => exact ih
    | got k x held => exact ih
    | book k j xs rest other some oldest none free =>
      by_cases hj : i = j
      · subst hj
        rw [oldest, List.length_append] at ih
        simp only [Function.update_self]
        omega
      · simpa [Function.update_of_ne hj] using ih
    | bare k j empty => exact ih
    | land k xs x held room =>
      by_cases hk : i = k
      · subst hk
        simpa [Function.update_self, Nat.add_right_comm] using room
      · simpa [Function.update_of_ne hk] using ih
    | stolen k j x held =>
      by_cases hj : i = j
      · subst hj
        simp only [Function.update_self]
        omega
      · simpa [Function.update_of_ne hj] using ih

/-- what an event puts in and takes out -/
theorem Allows.all {e : Event T} (h : Allows cap q e q') (hparty : e.party < n) (hfrom : ∀ i j xs, e = .book i j xs → j < n) :
    q'.all n + (taken [e] : Multiset T) = q.all n + (pushed [e] : Multiset T) := by
  simp only [pushed, taken, List.flatMap_singleton]
  cases h with
  | push i x room =>
    refine Spec.all_step (i := i) hparty ?_ fun k hk => ⟨Function.update_of_ne hk _ _, rfl⟩
    simp only [Function.update_self, ← Multiset.coe_add, Multiset.coe_nil, add_zero]
    exact add_right_comm _ _ _
  | full i full => rfl
  | pop i x rest youngest none =>
    refine Spec.all_step (i := i) hparty ?_ fun k hk => ⟨Function.update_of_ne hk _ _, Function.update_of_ne hk _ _⟩
    simp only [Function.update_self, youngest, none, ← Multiset.coe_add, Multiset.coe_nil, add_zero]
  | empty i empty => rfl
  | got i x held =>
    refine Spec.all_step (i := i) hparty ?_ fun k hk => ⟨rfl, Function.update_of_ne hk _ _⟩
    simp only [Function.update_self, held, Multiset.coe_nil, add_zero]
  | book i j xs rest other some oldest none free =>
    -- out of the deque of `j`, then into the hand of `i`
    have hout : Spec.all { q with deque := Function.update q.deque j rest } n + xs = q.all n + 0 := by
      refine Spec.all_step (i := j) (hfrom i j xs rfl) ?_ fun k hk => ⟨Function.update_of_ne hk _ _, rfl⟩
      simp only [Function.update_self, oldest, ← Multiset.coe_add, add_zero]
      rw [add_comm (xs : Multiset T) rest, add_right_comm]
    have hin : Spec.all ⟨Function.update q.deque j rest, Function.update q.hand i xs, Function.update q.busy j xs.length⟩ n + 0 =
        Spec.all { q with deque := Function.update q.deque j rest } n + xs := by
      refine Spec.all_step (i := i) hparty ?_ fun k hk => ⟨rfl, Function.update_of_ne hk _ _⟩
      simp only [Function.update_self, none, Multiset.coe_nil, add_zero]
    exact hin.trans hout
  | bare i j empty => rfl
  | land i xs x held room =>
    refine Spec.all_step (i := i) hparty ?_ fun k hk => ⟨Function.update_of_ne hk _ _, Function.update_of_ne hk _ _⟩
    simp only [Function.update_self, held, ← Multiset.coe_add, Multiset.coe_nil, add_zero]
    exact add_assoc _ _ _
  | stolen i j x held =>
    refine Spec.all_step (i := i) hparty ?_ fun k hk => ⟨rfl, Function.update_of_ne hk _ _⟩
    simp only [Function.update_self, held, Multiset.coe_nil, add_zero]

/-- nothing is lost and nothing comes out twice -/
theorem Accepts.conserved (h : Accepts cap log q) (hn : ∀ e ∈ log, e.party < n ∧ ∀ i j xs, e = .book i j xs → j < n) :
    (pushed log : Multiset T) = (taken log : Multiset T) + q.all n := by
  induction h with
  | nil => simp [pushed, taken, Spec.all]
  | @snoc log q q' e _ ha ih =>
    obtain ⟨hparty, hfrom⟩ := hn e (List.mem_append_right _ (List.mem_singleton_self e))
    have hlog := ih fun e he => hn e (List.mem_append_left _ he)
    have hstep := ha.all hparty hfrom
    have hpushed : pushed (log ++ [e]) = pushed log ++ pushed [e] := List.flatMap_append
    have htaken : taken (log ++ [e]) = taken log ++ taken [e] := List.flatMap_append
    calc (pushed (log ++ [e]) : Multiset T) = taken log + (q.all n + pushed [e]) := by
          rw [hpushed, ← Multiset.coe_add, hlog, add_assoc]
      _ = taken (log ++ [e]) + q'.all n := by rw [← hstep, htaken, ← Multiset.coe_add, add_assoc, add_comm (q'.all n)]

end YouPipe.Deques
