/-
The merge tree and count-then-place. Every pass is a recursion over the same leaves, so `Halving.halve_spec` reduces it to its leaf
loop and its node:

- the merge tree returns the survivors in order;
- the count pass stores the number of survivors of every leaf under the number of the leaf;
- the scan turns the counts into bounds that tile the output (`scan_tiles`);
- the place pass fills the output with the survivors, or unwinds and leaves no slot of it live (`place_spec`). It returns exactly
  when no item panics and every leaf keeps as many items as were counted for it; which items these are makes no difference.
-/
import Mathlib.Tactic
import YouPipe.Fused.Filter

namespace YouPipe.Fused

open YouPipe.Halving YouPipe.Tiling

variable {R P : Type}

/-! ## Slots of a range -/

/-- the slots from `lo` on hold `xs` -/
def Filled (lo : ℕ) (xs : List R) (m : Mem R) : Prop := ∀ j r, xs[j]? = some r → m.output (lo + j) = .live r

/-- the slots of `[lo, hi)` hold nothing -/
def Uninit (lo hi : ℕ) (m : Mem R) : Prop := ∀ i, lo ≤ i → i < hi → m.output i = .unwritten

/-- no slot of `[lo, hi)` is live: never written, or dropped -/
def Void (lo hi : ℕ) (m : Mem R) : Prop := ∀ i, lo ≤ i → i < hi → m.output i = .unwritten ∨ m.output i = .dropped

/-- legal work on the slots of `[lo, hi)` only -/
structure Works (lo hi : ℕ) (m m' : Mem R) : Prop where
  legal : m'.faults = m.faults
  outside : ∀ i, i < lo ∨ hi ≤ i → m'.output i = m.output i

section Slots

variable {lo hi lo' hi' : ℕ} {xs ys : List R} {m m' m'' : Mem R}

theorem Works.refl (lo hi : ℕ) (m : Mem R) : Works lo hi m m := ⟨rfl, fun _ _ => rfl⟩

theorem Works.trans (h : Works lo hi m m') (h' : Works lo hi m' m'') : Works lo hi m m'' :=
  ⟨h'.legal.trans h.legal, fun i hi => (h'.outside i hi).trans (h.outside i hi)⟩

theorem Works.mono (h : Works lo hi m m') (hlo : lo' ≤ lo) (hhi : hi ≤ hi') : Works lo' hi' m m' :=
  ⟨h.legal, fun i hi => h.outside i (by omega)⟩

theorem Uninit.void (h : Uninit lo hi m) : Void lo hi m := fun i h1 h2 => Or.inl (h i h1 h2)

theorem Uninit.frame (h : Uninit lo hi m) (hw : Works lo' hi' m m') (hd : hi ≤ lo' ∨ hi' ≤ lo) : Uninit lo hi m' := by
  intro i h1 h2
  rw [hw.outside i (by omega)]
  exact h i h1 h2

theorem Void.frame (h : Void lo hi m) (hw : Works lo' hi' m m') (hd : hi ≤ lo' ∨ hi' ≤ lo) : Void lo hi m' := by
  intro i h1 h2
  rw [hw.outside i (by omega)]
  exact h i h1 h2

theorem Void.union {mid : ℕ} (h : Void lo mid m) (h' : Void mid hi m) : Void lo hi m := by
  intro i h1 h2
  rcases Nat.lt_or_ge i mid with hlt | hge
  · exact h i h1 hlt
  · exact h' i hge h2

theorem Filled.frame (h : Filled lo xs m) (hw : Works lo' hi' m m') (hd : lo + xs.length ≤ lo' ∨ hi' ≤ lo) : Filled lo xs m' := by
  intro j r hj
  have hlt := (List.getElem?_eq_some_iff.1 hj).1
  rw [hw.outside (lo + j) (by omega)]
  exact h j r hj

theorem filled_nil (lo : ℕ) (m : Mem R) : Filled lo [] m := by
  intro j r hj
  simp at hj

theorem filled_append : Filled lo (xs ++ ys) m ↔ Filled lo xs m ∧ Filled (lo + xs.length) ys m := by
  constructor
  · intro h
    refine ⟨?_, ?_⟩
    · intro j r hj
      exact h j r (by rw [List.getElem?_append_left (List.getElem?_eq_some_iff.1 hj).1, hj])
    · intro j r hj
      have := h (xs.length + j) r (by rw [List.getElem?_append_right (by omega), Nat.add_sub_cancel_left, hj])
      rwa [← Nat.add_assoc] at this
  · rintro ⟨hx, hy⟩ j r hj
    rcases Nat.lt_or_ge j xs.length with hlt | hge
    · rw [List.getElem?_append_left hlt] at hj
      exact hx j r hj
    · rw [List.getElem?_append_right hge] at hj
      have := hy (j - xs.length) r hj
      have hidx : lo + xs.length + (j - xs.length) = lo + j := by omega
      rwa [hidx] at this

theorem filled_singleton {r : R} : Filled lo [r] m ↔ m.output lo = .live r := by
  constructor
  · intro h
    exact h 0 r rfl
  · intro h j x hj
    rcases j with _ | j
    · cases hj
      exact h
    · simp at hj

theorem filled_cons {r : R} : Filled lo (r :: xs) m ↔ m.output lo = .live r ∧ Filled (lo + 1) xs m := by
  rw [← List.singleton_append, filled_append, filled_singleton, List.length_singleton]

theorem works_write {i : ℕ} (r : R) (h : m.output i = .unwritten) :
    Works i (i + 1) m (m.write i r) ∧ (m.write i r).output i = .live r := by
  have hw : m.write i r = { m with output := Function.update m.output i (.live r) } := by simp [Mem.write, h]
  rw [hw]
  refine ⟨⟨rfl, ?_⟩, Function.update_self _ _ _⟩
  intro j hj
  exact Function.update_of_ne (by omega) _ _

/-- dropping the live slots of a range -/
theorem Filled.drop (h : Filled lo xs m) :
    Works lo (lo + xs.length) m (m.dropRange xs.length lo) ∧ Void lo (lo + xs.length) (m.dropRange xs.length lo) := by
  have hlive : ∀ i, lo ≤ i → i < lo + xs.length → ∃ r, m.output i = .live r := by
    intro i h1 h2
    have hlt : i - lo < xs.length := by omega
    refine ⟨xs[i - lo], ?_⟩
    have := h (i - lo) _ (List.getElem?_eq_getElem hlt)
    have hidx : lo + (i - lo) = i := by omega
    rwa [hidx] at this
  rw [dropRange_live hlive]
  refine ⟨⟨rfl, ?_⟩, ?_⟩
  · intro i hi
    exact if_neg (by omega)
  · intro i h1 h2
    exact Or.inr (if_pos ⟨h1, h2⟩)

/-- a filled buffer as the vector it holds -/
theorem intoVec_filled (h : Filled 0 xs m) : intoVec m xs.length = some xs := by
  have hrange : List.range xs.length = xs.zipIdx.map Prod.snd := by rw [List.zipIdx_map_snd, List.range_eq_range']
  unfold intoVec
  rw [hrange, List.mapM_map, mapM_of_forall (r := Prod.fst), List.zipIdx_map_fst]
  intro a ha
  have hlive := h a.2 a.1 (List.mem_zipIdx_iff_getElem?.1 ha)
  rw [Nat.zero_add] at hlive
  simp only [Function.comp, hlive]

end Slots

/-! ## Survivors -/

/-- the survivors of the `n` items from `s` on -/
def kept (op : ℕ → Pick R P) : ℕ → ℕ → List R
  | 0, _ => []
  | n + 1, s =>
    match op s with
    | .keep r => r :: kept op n (s + 1)
    | _ => kept op n (s + 1)

/-- none of the `n` items from `s` on panics -/
def quiet (op : ℕ → Pick R P) : ℕ → ℕ → Bool
  | 0, _ => true
  | n + 1, s =>
    match op s with
    | .panics _ => false
    | _ => quiet op n (s + 1)

/-- the survivors of a list of leaves -/
def keptOf (op : ℕ → Pick R P) (ls : List (ℕ × ℕ)) : List R := ls.flatMap fun p => kept op (p.2 - p.1) p.1

def quietOn (op : ℕ → Pick R P) (ls : List (ℕ × ℕ)) : Bool := ls.all fun p => quiet op (p.2 - p.1) p.1

section Survivors

variable (op : ℕ → Pick R P)

theorem survivors_keep {op : ℕ → Pick R P} {i : ℕ} {r : R} (ho : op i = .keep r) (n : ℕ) :
    kept op (n + 1) i = r :: kept op n (i + 1) ∧ quiet op (n + 1) i = quiet op n (i + 1) := by
  simp only [kept, quiet, ho, and_self]

theorem survivors_skip {op : ℕ → Pick R P} {i : ℕ} (ho : op i = .skip) (n : ℕ) :
    kept op (n + 1) i = kept op n (i + 1) ∧ quiet op (n + 1) i = quiet op n (i + 1) := by
  simp only [kept, quiet, ho, and_self]

theorem quiet_panics {op : ℕ → Pick R P} {i : ℕ} {p : P} (ho : op i = .panics p) (n : ℕ) : quiet op (n + 1) i = false := by
  simp only [quiet, ho]

theorem kept_length_le (n : ℕ) : ∀ s, (kept op n s).length ≤ n := by
  induction n with
  | zero => intro s; exact le_rfl
  | succ n ih =>
    intro s
    have := ih (s + 1)
    unfold kept
    split
    · rw [List.length_cons]
      omega
    · omega

theorem kept_add (n k : ℕ) : ∀ s, kept op (n + k) s = kept op n s ++ kept op k (s + n) := by
  induction n with
  | zero => intro s; simp [kept]
  | succ n ih =>
    intro s
    have hs : s + (n + 1) = s + 1 + n := by omega
    rw [Nat.add_right_comm, hs]
    rcases ho : op s with r | _ | p
    · simp only [kept, ho, ih, List.cons_append]
    · simp only [kept, ho, ih]
    · simp only [kept, ho, ih]

theorem quiet_add (n k : ℕ) : ∀ s, quiet op (n + k) s = (quiet op n s && quiet op k (s + n)) := by
  induction n with
  | zero => intro s; simp [quiet]
  | succ n ih =>
    intro s
    have hs : s + (n + 1) = s + 1 + n := by omega
    rw [Nat.add_right_comm, hs]
    rcases ho : op s with r | _ | p
    · simp only [quiet, ho, ih]
    · simp only [quiet, ho, ih]
    · simp only [quiet, ho, Bool.false_and]

@[simp] theorem keptOf_append (l r : List (ℕ × ℕ)) : keptOf op (l ++ r) = keptOf op l ++ keptOf op r := List.flatMap_append

@[simp] theorem quietOn_append (l r : List (ℕ × ℕ)) : quietOn op (l ++ r) = (quietOn op l && quietOn op r) := List.all_append

@[simp] theorem keptOf_singleton (s e : ℕ) : keptOf op [(s, e)] = kept op (e - s) s := by simp [keptOf]

@[simp] theorem quietOn_singleton (s e : ℕ) : quietOn op [(s, e)] = quiet op (e - s) s := by simp [quietOn]

/-- leaves that tile a range have the survivors of the range -/
theorem keptOf_tiles {s e : ℕ} {ls : List (ℕ × ℕ)} (h : Tiles s ls e) :
    keptOf op ls = kept op (e - s) s ∧ quietOn op ls = quiet op (e - s) s := by
  induction h with
  | nil a => simp [keptOf, quietOn, kept, quiet]
  | @cons a b c l hab ht ih =>
    have hbc := ht.bounds.1
    have hlen : c - a = (b - a) + (c - b) := by omega
    have hb : a + (b - a) = b := by omega
    rw [hlen, kept_add, quiet_add, hb, ← ih.1, ← ih.2]
    exact ⟨rfl, rfl⟩

end Survivors

/-- a chain that does not panic keeps what `filter_map` keeps -/
theorem kept_pick {I O P : Type} (stages : Chain I O) (input : List I) :
    kept (pick stages input : ℕ → Pick O P) input.length 0 = input.filterMap stages.apply ∧
      quiet (pick stages input : ℕ → Pick O P) input.length 0 = true := by
  have hdrop : ∀ (xs : List I) (s : ℕ), input.drop s = xs → kept (pick stages input : ℕ → Pick O P) xs.length s =
      xs.filterMap stages.apply ∧ quiet (pick stages input : ℕ → Pick O P) xs.length s = true := by
    intro xs
    induction xs with
    | nil => intro s _; exact ⟨rfl, rfl⟩
    | cons x xs ih =>
      intro s hs
      have hget : input[s]? = some x := by
        rw [← List.head?_drop, hs]
        rfl
      have hnext : input.drop (s + 1) = xs := by
        rw [← List.drop_drop, hs]
        rfl
      obtain ⟨hkept, hquiet⟩ := ih (s + 1) hnext
      rw [List.length_cons, List.filterMap_cons]
      rcases ha : stages.apply x with _ | o
      · have hp : (pick stages input s : Pick O P) = .skip := by simp [pick, hget, ha]
        simp only [kept, quiet, hp, hkept, hquiet, and_self]
      · have hp : (pick stages input s : Pick O P) = .keep o := by simp [pick, hget, ha]
        simp only [kept, quiet, hp, hkept, hquiet, and_self]
  exact hdrop input 0 (List.drop_zero)

/-! ## Leaves -/

theorem splitLeafCount_eq (splits : ℕ) : ∀ s e, splitLeafCount (e - s) splits = (leafRanges splits s e).length := by
  induction splits with
  | zero => intro s e; rfl
  | succ splits ih =>
    intro s e
    unfold splitLeafCount leafRanges
    split
    · rfl
    · have hl := ih s (s + (e - s) / 2)
      have hr := ih (s + (e - s) / 2) e
      rw [List.length_append, ← hl, ← hr, Nat.add_comm]
      congr 2
      · omega
      · omega

/-! ## The merge tree -/

theorem collectLoop_spec (op : ℕ → Pick R P) (n : ℕ) : ∀ (i : ℕ) (out : List R),
    (quiet op n i = true → collectLoop op n i out = .ok (out ++ kept op n i)) ∧
      (quiet op n i = false → ∃ p, collectLoop op n i out = .error p) := by
  induction n with
  | zero => intro i out; exact ⟨fun _ => by simp [collectLoop, kept], nofun⟩
  | succ n ih =>
    intro i out
    rcases ho : op i with r | _ | p
    · simp only [collectLoop, quiet, kept, ho]
      have h := ih (i + 1) (out ++ [r])
      rwa [List.append_assoc, List.singleton_append] at h
    · simp only [collectLoop, quiet, kept, ho]
      exact ih (i + 1) out
    · simp only [collectLoop, quiet, ho]
      exact ⟨nofun, fun _ => ⟨p, rfl⟩⟩

/-- a tree returns what its leaves amount to, or one of its leaves' panics -/
def Yields {α : Type} (op : ℕ → Pick R P) (ls : List (ℕ × ℕ)) (v : α) (r : Except P α) : Prop :=
  (quietOn op ls = true → r = .ok v) ∧ (quietOn op ls = false → ∃ p, r = .error p)

/-- the join of two sides that yield -/
theorem Yields.join {α : Type} {op : ℕ → Pick R P} {l r : List (ℕ × ℕ)} {v w : α} {a b : Except P α} (ha : Yields op l v a)
    (hb : Yields op r w b) (st : Bool) :
    (quietOn op (l ++ r) = true → rejoin st a b = .ok (v, w)) ∧
      (quietOn op (l ++ r) = false → ∃ p, rejoin st a b = .error p) := by
  rw [rejoin_eq_joinOn, quietOn_append]
  rcases hl : quietOn op l with _ | _
  · obtain ⟨p, rfl⟩ := ha.2 hl
    exact ⟨nofun, fun _ => ⟨p, rfl⟩⟩
  · rw [ha.1 hl]
    rcases hr : quietOn op r with _ | _
    · obtain ⟨p, rfl⟩ := hb.2 hr
      exact ⟨nofun, fun _ => ⟨p, rfl⟩⟩
    · rw [hb.1 hr]
      exact ⟨fun _ => rfl, nofun⟩

/-- a node that passes panics on and combines values with `g` -/
theorem Yields.node {α : Type} {op : ℕ → Pick R P} {l r : List (ℕ × ℕ)} {v w : α} {a b : Except P α} (ha : Yields op l v a)
    (hb : Yields op r w b) (st : Bool) (g : α → α → α) {c : Except P α}
    (hok : ∀ x y, rejoin st a b = .ok (x, y) → c = .ok (g x y)) (herr : ∀ p, rejoin st a b = .error p → c = .error p) :
    Yields op (l ++ r) (g v w) c := by
  obtain ⟨hgood, hbad⟩ := ha.join hb st
  refine ⟨fun h => hok v w (hgood h), ?_⟩
  intro h
  obtain ⟨p, hp⟩ := hbad h
  exact ⟨p, herr p hp⟩

theorem merge_proof (op : ℕ → Pick R P) :
    Proof (fun _ _ _ => True) (fun ls _ r _ => Yields op ls (keptOf op ls) r) (fun _ _ _ _ => True)
      (fun s e _ (_ : Unit) => (collectLoop op (e - s) s [], ())) mergeNode where
  leaf := by
    intro s e base m _ _
    refine ⟨?_, trivial⟩
    have h := collectLoop_spec op (e - s) s []
    rw [List.nil_append] at h
    rw [Yields, keptOf_singleton, quietOn_singleton]
    exact h
  node := by
    intro s mid e base l r a b m turn _ _ ha hb
    refine ⟨?_, trivial⟩
    rw [keptOf_append]
    refine ha.node hb turn.isStolen (· ++ ·) ?_ ?_
    · intro x y h
      simp only [mergeNode, h]
    · intro p h
      simp only [mergeNode, h]
  fork := fun _ _ _ => ⟨trivial, trivial⟩
  left := fun _ _ _ _ => ⟨trivial, fun _ => trivial, fun _ h => h⟩
  right := fun _ _ _ _ => ⟨trivial, fun _ => trivial, fun _ h => h⟩
  trans := fun _ _ => trivial

/-- **The merge tree** returns the survivors in order -/
theorem merge_spec (op : ℕ → Pick R P) (turn : ℕ → ℕ → Turn) (splits : ℕ) {s e : ℕ} (hs : s ≤ e)
    (hq : quiet op (e - s) s = true) : joinFusedCollectByRef op turn splits s e = .ok (kept op (e - s) s) := by
  have hspec := (halve_spec (merge_proof op) splitLeafCount_eq turn splits 0 () hs trivial).1
  obtain ⟨hkept, hquiet⟩ := keptOf_tiles op (leafRanges_tiles splits hs)
  rw [Yields, hkept, hquiet] at hspec
  exact hspec.1 hq

/-! ## The count pass -/

theorem countLoop_spec (op : ℕ → Pick R P) (n : ℕ) : ∀ i c : ℕ,
    (quiet op n i = true → countLoop op n i c = .ok (c + (kept op n i).length)) ∧
      (quiet op n i = false → ∃ p, countLoop op n i c = .error p) := by
  induction n with
  | zero => intro i c; exact ⟨fun _ => by simp [countLoop, kept], nofun⟩
  | succ n ih =>
    intro i c
    rcases ho : op i with r | _ | p
    · simp only [countLoop, quiet, kept, ho, List.length_cons]
      have h := ih (i + 1) (c + 1)
      rwa [Nat.add_right_comm, Nat.add_assoc] at h
    · simp only [countLoop, quiet, kept, ho]
      exact ih (i + 1) c
    · simp only [countLoop, quiet, ho]
      exact ⟨nofun, fun _ => ⟨p, rfl⟩⟩

/-- the counts of these leaves are stored under their numbers -/
def Counted (op : ℕ → Pick R P) (ls : List (ℕ × ℕ)) (base : ℕ) (counts : ℕ → ℕ) : Prop :=
  ∀ i p, ls[i]? = some p → counts (base + i) = (kept op (p.2 - p.1) p.1).length

/-- a property of every leaf by its number, for the leaves of two halves -/
theorem forall_leaf_append (l r : List (ℕ × ℕ)) (base : ℕ) (Q : ℕ → ℕ × ℕ → Prop) :
    (∀ i p, (l ++ r)[i]? = some p → Q (base + i) p) ↔
      (∀ i p, l[i]? = some p → Q (base + i) p) ∧ ∀ i p, r[i]? = some p → Q (base + l.length + i) p := by
  constructor
  · intro h
    refine ⟨fun i p hi => h i p ?_, fun i p hi => ?_⟩
    · rw [List.getElem?_append_left (List.getElem?_eq_some_iff.1 hi).1, hi]
    · rw [Nat.add_assoc]
      exact h (l.length + i) p (by rw [List.getElem?_append_right (by omega), Nat.add_sub_cancel_left, hi])
  · rintro ⟨hl, hr⟩ i p hi
    rcases Nat.lt_or_ge i l.length with hlt | hge
    · rw [List.getElem?_append_left hlt] at hi
      exact hl i p hi
    · rw [List.getElem?_append_right hge] at hi
      have := hr _ p hi
      have hidx : l.length + (i - l.length) = i := by omega
      rwa [Nat.add_assoc, hidx] at this

/-- a property of every leaf, for one leaf -/
theorem forall_leaf_singleton {s e base : ℕ} {Q : ℕ → ℕ × ℕ → Prop} :
    (∀ i p, [(s, e)][i]? = some p → Q (base + i) p) ↔ Q base (s, e) := by
  constructor
  · intro h
    exact h 0 (s, e) rfl
  · intro h i p hi
    rcases i with _ | i
    · cases hi
      exact h
    · simp at hi

/-- only the entries of these leaves change -/
def Stores {β : Type} (ls : List (ℕ × ℕ)) (base : ℕ) (c c' : ℕ → β) : Prop := ∀ j, j < base ∨ base + ls.length ≤ j → c' j = c j

section Stores

variable {β : Type} {l r : List (ℕ × ℕ)} {base : ℕ} {c c' c'' : ℕ → β}

theorem Stores.left (h : Stores l base c c') : Stores (l ++ r) base c c' := fun j hj => h j (by
  rw [List.length_append] at hj
  omega)

theorem Stores.right (h : Stores r (base + l.length) c c') : Stores (l ++ r) base c c' := fun j hj => h j (by
  rw [List.length_append] at hj
  omega)

theorem Stores.trans (h : Stores l base c c') (h' : Stores l base c' c'') : Stores l base c c'' :=
  fun j hj => (h' j hj).trans (h j hj)

theorem stores_update (s e base : ℕ) (c : ℕ → β) (x : β) : Stores [(s, e)] base c (Function.update c base x) := by
  intro j hj
  rw [List.length_singleton] at hj
  exact Function.update_of_ne (by omega) _ _

/-- an entry of the other half -/
theorem Stores.at_right (h : Stores l base c c') (i : ℕ) : c' (base + l.length + i) = c (base + l.length + i) :=
  h _ (by omega)

theorem Stores.at_left (h : Stores r (base + l.length) c c') {i : ℕ} {p : ℕ × ℕ} (hi : l[i]? = some p) :
    c' (base + i) = c (base + i) := by
  have := (List.getElem?_eq_some_iff.1 hi).1
  exact h _ (by omega)

end Stores

theorem count_proof (op : ℕ → Pick R P) :
    Proof (fun _ _ _ => True)
      (fun ls base r counts => Yields op ls (keptOf op ls).length r ∧ (quietOn op ls = true → Counted op ls base counts))
      Stores (countLeaf op) countNode where
  leaf := by
    intro s e base counts _ _
    obtain ⟨hok, herr⟩ := countLoop_spec op (e - s) s 0
    rw [Nat.zero_add] at hok
    rw [Yields, keptOf_singleton, quietOn_singleton]
    rcases hq : quiet op (e - s) s with _ | _
    · obtain ⟨p, hp⟩ := herr hq
      have hrun : countLeaf op s e base counts = (.error p, counts) := by simp only [countLeaf, hp]
      rw [hrun]
      exact ⟨⟨⟨nofun, fun _ => ⟨p, rfl⟩⟩, nofun⟩, fun _ _ => rfl⟩
    · have hrun : countLeaf op s e base counts =
          (.ok (kept op (e - s) s).length, Function.update counts base (kept op (e - s) s).length) := by
        simp only [countLeaf, hok hq]
      rw [hrun]
      refine ⟨⟨⟨fun _ => rfl, nofun⟩, fun _ => ?_⟩, stores_update s e base counts _⟩
      rw [Counted, forall_leaf_singleton (Q := fun k p => Function.update counts base (kept op (e - s) s).length k =
        (kept op (p.2 - p.1) p.1).length)]
      exact Function.update_self _ _ _
  node := by
    intro s mid e base l r a b counts turn _ _ ha hb
    have hsame : (countNode turn base (base + l.length) (base + l.length + r.length) a b counts).2 = counts := by
      unfold countNode
      split
      · rfl
      · rfl
    rw [hsame]
    refine ⟨⟨?_, ?_⟩, fun _ _ => rfl⟩
    · rw [keptOf_append, List.length_append]
      refine ha.1.node hb.1 turn.isStolen (· + ·) ?_ ?_
      · intro x y h
        simp only [countNode, h]
      · intro p h
        simp only [countNode, h]
    · intro h
      rw [quietOn_append, Bool.and_eq_true] at h
      exact (forall_leaf_append _ _ _ fun k p => counts k = (kept op (p.2 - p.1) p.1).length).2 ⟨ha.2 h.1, hb.2 h.2⟩
  fork := fun _ _ _ => ⟨trivial, trivial⟩
  left := by
    intro s mid e base l r c₀ c c' _ _ _ ht
    refine ⟨ht.left, fun _ => trivial, fun b hb => ⟨hb.1, fun hq i p hi => ?_⟩⟩
    rw [ht.at_right i]
    exact hb.2 hq i p hi
  right := by
    intro s mid e base l r c₀ c c' _ _ _ ht
    refine ⟨ht.right, fun _ => trivial, fun a ha => ⟨ha.1, fun hq i p hi => ?_⟩⟩
    rw [ht.at_left hi]
    exact ha.2 hq i p hi
  trans := Stores.trans

/-! ## The bounds -/

theorem scanCounts_eq (counts : List ℕ) : ∀ (bounds : List ℕ) (total : ℕ),
    scanCounts counts bounds total =
      (bounds ++ (List.range (counts.length + 1)).map fun i => total + (counts.take i).sum, total + counts.sum) := by
  induction counts with
  | nil => intro bounds total; simp [scanCounts]
  | cons c counts ih =>
    intro bounds total
    have hrange : (List.range (counts.length + 1 + 1)).map (fun i => total + ((c :: counts).take i).sum) =
        total :: (List.range (counts.length + 1)).map fun i => total + c + (counts.take i).sum := by
      rw [List.range_succ_eq_map, List.map_cons, List.map_map]
      simp [Function.comp_def, Nat.add_assoc]
    rw [scanCounts, ih, List.length_cons, hrange, List.sum_cons, List.append_assoc, List.singleton_append, Nat.add_assoc]

/-- the context of a place pass, from the counts alone -/
def ctxOf (counts : List ℕ) : PlaceCtx := ⟨(scanCounts counts [] 0).1, counts⟩

theorem bound_ctxOf (counts : List ℕ) {i : ℕ} (h : i ≤ counts.length) : (ctxOf counts).bound i = (counts.take i).sum := by
  simp [PlaceCtx.bound, ctxOf, scanCounts_eq, List.getD_eq_getElem?_getD, Nat.lt_succ_of_le h]

/-- the bound behind a leaf is its own bound and its count -/
def Coherent (ctx : PlaceCtx) (leaves : ℕ) : Prop := ∀ i < leaves, ctx.bound (i + 1) = ctx.bound i + ctx.count i

theorem coherent_ctxOf (counts : List ℕ) : Coherent (ctxOf counts) counts.length := by
  intro i hi
  rw [bound_ctxOf counts hi, bound_ctxOf counts hi.le, List.sum_take_succ _ _ hi]
  simp [PlaceCtx.count, ctxOf, List.getD_eq_getElem?_getD, hi]

theorem Coherent.mono {ctx : PlaceCtx} {leaves i : ℕ} (h : Coherent ctx leaves) (k : ℕ) (hk : i + k ≤ leaves) :
    ctx.bound i ≤ ctx.bound (i + k) := by
  induction k with
  | zero => exact le_rfl
  | succ k ih =>
    have hstep := h (i + k) (by omega)
    have := ih (by omega)
    rw [← Nat.add_assoc]
    omega

/-- **The leaves in the output**: the bounds tile it, each leaf's range as long as its count -/
theorem scan_tiles (counts : List ℕ) :
    Tiles 0 ((List.range counts.length).map fun i => ((ctxOf counts).bound i, (ctxOf counts).bound (i + 1))) counts.sum := by
  have hmono : Monotone fun i => (counts.take i).sum := by
    refine monotone_nat_of_le_succ fun i => ?_
    rcases Nat.lt_or_ge i counts.length with hlt | hge
    · rw [List.sum_take_succ _ _ hlt]
      exact Nat.le_add_right _ _
    · rw [List.take_of_length_le hge, List.take_of_length_le (by omega)]
  have htiles := tiles_range hmono counts.length
  have hranges : ((List.range counts.length).map fun i => ((counts.take i).sum, (counts.take (i + 1)).sum)) =
      (List.range counts.length).map fun i => ((ctxOf counts).bound i, (ctxOf counts).bound (i + 1)) := by
    refine List.map_congr_left fun i hi => ?_
    have hlt := List.mem_range.1 hi
    rw [bound_ctxOf counts hlt.le, bound_ctxOf counts hlt]
  rw [hranges] at htiles
  simpa using htiles

/-- counted leaves take up as many slots as they have survivors -/
theorem bound_kept {op : ℕ → Pick R P} {ctx : PlaceCtx} {leaves : ℕ} (hctx : Coherent ctx leaves) (ls : List (ℕ × ℕ)) :
    ∀ base : ℕ, base + ls.length ≤ leaves → Counted op ls base ctx.count →
      ctx.bound (base + ls.length) = ctx.bound base + (keptOf op ls).length := by
  induction ls with
  | nil => intro base _ _; simp [keptOf]
  | cons p ls ih =>
    intro base hb hc
    rw [List.length_cons] at hb
    have hfirst : ctx.count base = (kept op (p.2 - p.1) p.1).length := hc 0 p rfl
    have hrest : Counted op ls (base + 1) ctx.count := by
      intro i q hi
      rw [Nat.add_assoc, Nat.add_comm 1 i]
      exact hc (i + 1) q hi
    have hstep := hctx base (by omega)
    have htail := ih (base + 1) (by omega) hrest
    have hkept : (keptOf op (p :: ls)).length = (kept op (p.2 - p.1) p.1).length + (keptOf op ls).length := by
      simp [keptOf]
    have hend : base + (ls.length + 1) = base + 1 + ls.length := by omega
    rw [List.length_cons, hend, htail, hstep, hfirst, hkept, Nat.add_assoc]

/-! ## The place pass -/

/-- the leaf guard: the written prefix is dropped -/
theorem drop_written {off cnt : ℕ} {vs : List R} {m : Mem R} (hle : vs.length ≤ cnt) (hf : Filled off vs m)
    (hu : Uninit (off + vs.length) (off + cnt) m) :
    Works off (off + cnt) m (m.dropRange vs.length off) ∧ Void off (off + cnt) (m.dropRange vs.length off) := by
  obtain ⟨hw, hv⟩ := hf.drop
  exact ⟨hw.mono le_rfl (by omega), hv.union (hu.frame hw (Or.inr le_rfl)).void⟩

/-- one more survivor in its slot -/
theorem write_next {off cnt : ℕ} {vs : List R} {m : Mem R} (r : R) (hlt : vs.length < cnt) (hf : Filled off vs m)
    (hu : Uninit (off + vs.length) (off + cnt) m) :
    Works off (off + cnt) m (m.write (off + vs.length) r) ∧ Filled off (vs ++ [r]) (m.write (off + vs.length) r) ∧
      Uninit (off + (vs ++ [r]).length) (off + cnt) (m.write (off + vs.length) r) := by
  obtain ⟨hw, hlive⟩ := works_write r (hu (off + vs.length) le_rfl (by omega))
  refine ⟨hw.mono (by omega) (by omega), ?_, ?_⟩
  · exact filled_append.2 ⟨hf.frame hw (Or.inl le_rfl), filled_singleton.2 hlive⟩
  · intro i h1 h2
    rw [List.length_append, List.length_singleton] at h1
    rw [hw.outside i (by omega)]
    exact hu i (by omega) h2

theorem placeLoop_spec (op : ℕ → Pick R P) (off cnt n : ℕ) : ∀ (i : ℕ) (vs : List R) (m : Mem R), vs.length ≤ cnt →
    Filled off vs m → Uninit (off + vs.length) (off + cnt) m →
    Works off (off + cnt) m (placeLoop op off cnt n i vs.length m).2 ∧
      (((placeLoop op off cnt n i vs.length m).1 = .ok () ∧
          (quiet op n i = true ∧ cnt = vs.length + (kept op n i).length) ∧
          Filled off (vs ++ kept op n i) (placeLoop op off cnt n i vs.length m).2) ∨
        ((∃ p, (placeLoop op off cnt n i vs.length m).1 = .error p) ∧
          ¬ (quiet op n i = true ∧ cnt = vs.length + (kept op n i).length) ∧
          Void off (off + cnt) (placeLoop op off cnt n i vs.length m).2)) := by
  induction n with
  | zero =>
    intro i vs m hle hf hu
    by_cases heq : vs.length = cnt
    · have hrun : placeLoop op off cnt 0 i vs.length m = (.ok (), m) := by simp only [placeLoop, heq, if_true]
      rw [hrun]
      exact ⟨Works.refl _ _ m, Or.inl ⟨rfl, ⟨rfl, by simp [kept, heq]⟩, by simpa [kept] using hf⟩⟩
    · have hrun : placeLoop op off cnt 0 i vs.length m = (.error .keptFewer, m.dropRange vs.length off) := by
        simp only [placeLoop, heq, if_false]
      obtain ⟨hw, hv⟩ := drop_written hle hf hu
      rw [hrun]
      refine ⟨hw, Or.inr ⟨⟨_, rfl⟩, ?_, hv⟩⟩
      rintro ⟨-, hcnt⟩
      exact heq (by simpa [kept] using hcnt.symm)
  | succ n ih =>
    intro i vs m hle hf hu
    rcases ho : op i with r | _ | p
    · by_cases hlt : vs.length < cnt
      · obtain ⟨hw, hf', hu'⟩ := write_next r hlt hf hu
        have hlen : (vs ++ [r]).length = vs.length + 1 := by simp
        obtain ⟨hw', hres⟩ := ih (i + 1) (vs ++ [r]) (m.write (off + vs.length) r) (by omega) hf' hu'
        have hrun : placeLoop op off cnt (n + 1) i vs.length m =
            placeLoop op off cnt n (i + 1) (vs ++ [r]).length (m.write (off + vs.length) r) := by
          simp only [placeLoop, ho, hlt, if_true, hlen]
        obtain ⟨hkept, hquiet⟩ := survivors_keep ho n
        have hsum : (vs ++ [r]).length + (kept op n (i + 1)).length = vs.length + (r :: kept op n (i + 1)).length := by
          rw [hlen, List.length_cons]
          omega
        rw [hrun, hquiet, hkept]
        rw [List.append_assoc, List.singleton_append, hsum] at hres
        exact ⟨hw.trans hw', hres⟩
      · -- more survivors than were counted
        have hrun : placeLoop op off cnt (n + 1) i vs.length m = (.error .keptMore, m.dropRange vs.length off) := by
          simp only [placeLoop, ho, hlt, if_false]
        obtain ⟨hw, hv⟩ := drop_written hle hf hu
        rw [hrun, (survivors_keep ho n).1]
        refine ⟨hw, Or.inr ⟨⟨_, rfl⟩, ?_, hv⟩⟩
        rintro ⟨-, hcnt⟩
        rw [List.length_cons] at hcnt
        omega
    · have hrun : placeLoop op off cnt (n + 1) i vs.length m = placeLoop op off cnt n (i + 1) vs.length m := by
        simp only [placeLoop, ho]
      obtain ⟨hkept, hquiet⟩ := survivors_skip ho n
      rw [hrun, hquiet, hkept]
      exact ih (i + 1) vs m hle hf hu
    · have hrun : placeLoop op off cnt (n + 1) i vs.length m = (.error (.stage p), m.dropRange vs.length off) := by
        simp only [placeLoop, ho]
      obtain ⟨hw, hv⟩ := drop_written hle hf hu
      rw [hrun]
      refine ⟨hw, Or.inr ⟨⟨_, rfl⟩, ?_, hv⟩⟩
      rintro ⟨hq, -⟩
      rw [quiet_panics ho n] at hq
      cases hq

/-- no leaf panics, and every leaf keeps as many items as its count says -/
def Matched (op : ℕ → Pick R P) (ctx : PlaceCtx) (ls : List (ℕ × ℕ)) (base : ℕ) : Prop :=
  quietOn op ls = true ∧ Counted op ls base ctx.count

theorem matched_append {op : ℕ → Pick R P} {ctx : PlaceCtx} {l r : List (ℕ × ℕ)} {base : ℕ} :
    Matched op ctx (l ++ r) base ↔ Matched op ctx l base ∧ Matched op ctx r (base + l.length) := by
  have hc := forall_leaf_append l r base fun k p => ctx.count k = (kept op (p.2 - p.1) p.1).length
  unfold Matched Counted
  rw [quietOn_append, Bool.and_eq_true, hc]
  tauto

/-- how the place pass leaves the output range of these leaves -/
structure Placed (op : ℕ → Pick R P) (ctx : PlaceCtx) (leaves : ℕ) (ls : List (ℕ × ℕ)) (base : ℕ)
    (r : Except (Raise P) Unit) (m : Mem R) : Prop where
  inside : base + ls.length ≤ leaves
  ends : (r = .ok () ∧ Matched op ctx ls base ∧ Filled (ctx.bound base) (keptOf op ls) m) ∨
    ((∃ p, r = .error p) ∧ ¬ Matched op ctx ls base ∧ Void (ctx.bound base) (ctx.bound (base + ls.length)) m)

/-- work elsewhere does not change how a range was left -/
theorem Placed.frame {op : ℕ → Pick R P} {ctx : PlaceCtx} {leaves base lo hi : ℕ} {ls : List (ℕ × ℕ)}
    {r : Except (Raise P) Unit} {m m' : Mem R} (hctx : Coherent ctx leaves) (h : Placed op ctx leaves ls base r m)
    (hw : Works lo hi m m') (hd : ctx.bound (base + ls.length) ≤ lo ∨ hi ≤ ctx.bound base) :
    Placed op ctx leaves ls base r m' := by
  refine ⟨h.inside, ?_⟩
  rcases h.ends with ⟨hok, hmatch, hf⟩ | ⟨herr, hno, hv⟩
  · refine Or.inl ⟨hok, hmatch, hf.frame hw ?_⟩
    rwa [← bound_kept hctx ls base h.inside hmatch.2]
  · exact Or.inr ⟨herr, hno, hv.frame hw hd⟩

/-- legal work on the output range of these leaves -/
def PlaceTouch (ctx : PlaceCtx) (ls : List (ℕ × ℕ)) (base : ℕ) (m m' : Mem R) : Prop :=
  Works (ctx.bound base) (ctx.bound (base + ls.length)) m m'

section PlaceNode

variable {op : ℕ → Pick R P} {ctx : PlaceCtx} {leaves base : ℕ} {l r : List (ℕ × ℕ)} {m : Mem R}

/-- `drop_leaf_range` on completed leaves -/
theorem dropLeafRange_spec (hctx : Coherent ctx leaves) (hl : base + l.length ≤ leaves) (hmatch : Matched op ctx l base)
    (hf : Filled (ctx.bound base) (keptOf op l) m) :
    Works (ctx.bound base) (ctx.bound (base + l.length)) m (dropLeafRange ctx base (base + l.length) m) ∧
      Void (ctx.bound base) (ctx.bound (base + l.length)) (dropLeafRange ctx base (base + l.length) m) := by
  have hb := bound_kept hctx l base hl hmatch.2
  have hlen : ctx.bound (base + l.length) - ctx.bound base = (keptOf op l).length := by omega
  unfold dropLeafRange
  rw [hlen, hb]
  exact hf.drop

/-- the panic of the second side: the first one's range is dropped, by the guard or in the match -/
theorem placeNode_second (turn : Turn) (hi : ℕ) (p : Raise P) :
    placeNode ctx turn base (base + l.length) hi (.ok ()) (.error p) m =
      (.error p, dropLeafRange ctx base (base + l.length) m) := by
  rcases turn with _ | early
  · rfl
  · rfl

theorem placeNode_first (turn : Turn) (hi : ℕ) (p : Raise P) :
    placeNode ctx turn base (base + l.length) hi (.error p) (.ok ()) m =
      (.error p, dropLeafRange ctx (base + l.length) hi m) := by
  rcases turn with _ | early
  · rfl
  · rfl

theorem placeNode_both (turn : Turn) (mid hi : ℕ) (p q : Raise P) :
    placeNode ctx turn base mid hi (.error p) (.error q) m = (.error p, m) := by
  rcases turn with _ | early
  · rfl
  · rfl

theorem placeNode_ok (turn : Turn) (mid hi : ℕ) :
    placeNode (P := P) ctx turn base mid hi (.ok ()) (.ok ()) m = (.ok (), m) := by
  rcases turn with _ | early
  · rfl
  · rfl

theorem placeNode_spec (hctx : Coherent ctx leaves) {a b : Except (Raise P) Unit} (turn : Turn)
    (ha : Placed op ctx leaves l base a m) (hb : Placed op ctx leaves r (base + l.length) b m) :
    Placed op ctx leaves (l ++ r) base (placeNode ctx turn base (base + l.length) (base + l.length + r.length) a b m).1
        (placeNode ctx turn base (base + l.length) (base + l.length + r.length) a b m).2 ∧
      PlaceTouch ctx (l ++ r) base m (placeNode ctx turn base (base + l.length) (base + l.length + r.length) a b m).2 := by
  obtain ⟨hla, ha⟩ := ha
  obtain ⟨hlb, hb⟩ := hb
  have hlen : base + (l ++ r).length = base + l.length + r.length := by rw [List.length_append, Nat.add_assoc]
  have hlo : ctx.bound base ≤ ctx.bound (base + l.length) := hctx.mono l.length (by omega)
  have hhi : ctx.bound (base + l.length) ≤ ctx.bound (base + l.length + r.length) := hctx.mono r.length (by omega)
  unfold PlaceTouch
  rw [hlen]
  rcases ha with ⟨rfl, hma, hfa⟩ | ⟨⟨p, rfl⟩, hna, hva⟩
  · rcases hb with ⟨rfl, hmb, hfb⟩ | ⟨⟨q, rfl⟩, hnb, hvb⟩
    · rw [placeNode_ok]
      refine ⟨⟨by omega, Or.inl ⟨rfl, matched_append.2 ⟨hma, hmb⟩, ?_⟩⟩, Works.refl _ _ m⟩
      rw [keptOf_append, filled_append, ← bound_kept hctx l base hla hma.2]
      exact ⟨hfa, hfb⟩
    · obtain ⟨hw, hv⟩ := dropLeafRange_spec hctx hla hma hfa
      rw [placeNode_second]
      refine ⟨⟨by omega, Or.inr ⟨⟨q, rfl⟩, fun h => hnb (matched_append.1 h).2, ?_⟩⟩, hw.mono le_rfl hhi⟩
      rw [hlen]
      exact hv.union (hvb.frame hw (Or.inr le_rfl))
  · rcases hb with ⟨rfl, hmb, hfb⟩ | ⟨⟨q, rfl⟩, hnb, hvb⟩
    · obtain ⟨hw, hv⟩ := dropLeafRange_spec hctx hlb hmb hfb
      rw [placeNode_first]
      refine ⟨⟨by omega, Or.inr ⟨⟨p, rfl⟩, fun h => hna (matched_append.1 h).1, ?_⟩⟩, hw.mono hlo le_rfl⟩
      rw [hlen]
      exact (hva.frame hw (Or.inl le_rfl)).union hv
    · rw [placeNode_both]
      refine ⟨⟨by omega, Or.inr ⟨⟨p, rfl⟩, fun h => hna (matched_append.1 h).1, ?_⟩⟩, Works.refl _ _ m⟩
      rw [hlen]
      exact hva.union hvb

end PlaceNode

theorem place_proof (op : ℕ → Pick R P) {ctx : PlaceCtx} {leaves : ℕ} (hctx : Coherent ctx leaves) :
    Proof (fun ls base m => base + ls.length ≤ leaves ∧ Uninit (ctx.bound base) (ctx.bound (base + ls.length)) m)
      (Placed op ctx leaves) (PlaceTouch ctx) (placeLeaf op ctx) (placeNode ctx) where
  leaf := by
    rintro s e base m _ ⟨hin, hu⟩
    rw [List.length_singleton] at hin hu
    rw [hctx base hin] at hu
    obtain ⟨hw, hres⟩ := placeLoop_spec op (ctx.bound base) (ctx.count base) (e - s) s [] m (Nat.zero_le _) (filled_nil _ m) hu
    have hmatch : Matched op ctx [(s, e)] base ↔
        quiet op (e - s) s = true ∧ ctx.count base = ([] : List R).length + (kept op (e - s) s).length := by
      rw [Matched, quietOn_singleton, Counted,
        forall_leaf_singleton (Q := fun k p => ctx.count k = (kept op (p.2 - p.1) p.1).length)]
      simp
    rw [← hmatch, List.nil_append] at hres
    refine ⟨⟨by simpa using hin, ?_⟩, ?_⟩
    · rw [keptOf_singleton, List.length_singleton, hctx base hin]
      exact hres
    · rw [PlaceTouch, List.length_singleton, hctx base hin]
      exact hw
  node := fun turn _ _ ha hb => placeNode_spec hctx turn ha hb
  fork := by
    rintro s mid e base l r m _ _ ⟨hin, hu⟩
    rw [List.length_append, ← Nat.add_assoc] at hin hu
    have hlo : ctx.bound base ≤ ctx.bound (base + l.length) := hctx.mono l.length (by omega)
    have hhi : ctx.bound (base + l.length) ≤ ctx.bound (base + l.length + r.length) := hctx.mono r.length (by omega)
    refine ⟨⟨by omega, ?_⟩, hin, ?_⟩
    · intro i h1 h2
      exact hu i h1 (by omega)
    · intro i h1 h2
      exact hu i (by omega) h2
  left := by
    rintro s mid e base l r m₀ m m' _ _ ⟨hin, -⟩ ht
    rw [List.length_append, ← Nat.add_assoc] at hin
    refine ⟨?_, fun hpre => ⟨hpre.1, hpre.2.frame ht (Or.inr le_rfl)⟩, fun b hb => hb.frame hctx ht (Or.inr le_rfl)⟩
    rw [PlaceTouch, List.length_append, ← Nat.add_assoc]
    exact ht.mono le_rfl (hctx.mono r.length (by omega))
  right := by
    rintro s mid e base l r m₀ m m' _ _ ⟨hin, -⟩ ht
    rw [List.length_append, ← Nat.add_assoc] at hin
    refine ⟨?_, fun hpre => ⟨hpre.1, hpre.2.frame ht (Or.inl le_rfl)⟩, fun a ha => ?_⟩
    · rw [PlaceTouch, List.length_append, ← Nat.add_assoc]
      exact ht.mono (hctx.mono l.length (by omega)) le_rfl
    · exact ha.frame hctx ht (Or.inl le_rfl)
  trans := Works.trans

/-- **The place pass** on a fresh buffer, for any counts: it returns exactly when the counts are met, and then the buffer holds the
survivors; otherwise it unwinds and every slot it wrote has been dropped -/
theorem place_spec (op : ℕ → Pick R P) (counts : List ℕ) (turn : ℕ → ℕ → Turn) {depth n : ℕ}
    (hlen : counts.length = (leafRanges depth 0 n).length) :
    Works 0 counts.sum Mem.fresh (placeFilterRec op (ctxOf counts) turn depth 0 n 0 Mem.fresh).2 ∧
      (((placeFilterRec op (ctxOf counts) turn depth 0 n 0 Mem.fresh).1 = .ok () ∧
          Matched op (ctxOf counts) (leafRanges depth 0 n) 0 ∧ counts.sum = (kept op n 0).length ∧
          Filled 0 (kept op n 0) (placeFilterRec op (ctxOf counts) turn depth 0 n 0 Mem.fresh).2) ∨
        ((∃ p, (placeFilterRec op (ctxOf counts) turn depth 0 n 0 Mem.fresh).1 = .error p) ∧
          ¬ Matched op (ctxOf counts) (leafRanges depth 0 n) 0 ∧
          Void 0 counts.sum (placeFilterRec op (ctxOf counts) turn depth 0 n 0 Mem.fresh).2)) := by
  have hctx := coherent_ctxOf counts
  have hfirst : (ctxOf counts).bound 0 = 0 := by rw [bound_ctxOf counts (Nat.zero_le _), List.take_zero, List.sum_nil]
  have hlast : (ctxOf counts).bound (0 + (leafRanges depth 0 n).length) = counts.sum := by
    rw [Nat.zero_add, ← hlen, bound_ctxOf counts le_rfl, List.take_length]
  have hkept := (keptOf_tiles op (leafRanges_tiles depth (Nat.zero_le n))).1
  obtain ⟨hplaced, htouch⟩ := halve_spec (place_proof op hctx) splitLeafCount_eq turn depth 0 Mem.fresh
    (Nat.zero_le n) ⟨by omega, fun _ _ _ => rfl⟩
  rw [PlaceTouch, hfirst, hlast] at htouch
  refine ⟨htouch, ?_⟩
  rcases hplaced.ends with ⟨hok, hmatch, hf⟩ | ⟨herr, hno, hv⟩
  · have hsum := bound_kept hctx _ 0 hplaced.inside hmatch.2
    rw [hlast, hfirst, hkept, Nat.sub_zero, Nat.zero_add] at hsum
    rw [hfirst, hkept, Nat.sub_zero] at hf
    exact Or.inl ⟨hok, hmatch, hsum, hf⟩
  · rw [hfirst, hlast] at hv
    exact Or.inr ⟨herr, hno, hv⟩

/-- **The count pass**: the counts of all leaves, or a panic of the chain -/
theorem count_spec (op : ℕ → Pick R P) (turn : ℕ → ℕ → Turn) (depth n : ℕ) (counts : ℕ → ℕ) :
    (quiet op n 0 = true → (countFilterRec op turn depth 0 n 0 counts).1 = .ok (kept op n 0).length ∧
      Counted op (leafRanges depth 0 n) 0 (countFilterRec op turn depth 0 n 0 counts).2) ∧
    (quiet op n 0 = false → ∃ p, (countFilterRec op turn depth 0 n 0 counts).1 = .error p) := by
  obtain ⟨⟨hyields, hcounted⟩, -⟩ := halve_spec (count_proof op) splitLeafCount_eq turn depth 0 counts
    (Nat.zero_le n) trivial
  obtain ⟨hkept, hquiet⟩ := keptOf_tiles op (leafRanges_tiles depth (Nat.zero_le n))
  rw [Nat.sub_zero] at hkept hquiet
  rw [Yields, hkept, hquiet] at hyields
  rw [hquiet] at hcounted
  exact ⟨fun h => ⟨hyields.1 h, hcounted h⟩, hyields.2⟩

/-! ## Count-then-place -/

/-- the two passes keep as many items in every leaf, and no item panics in either -/
def Agree (op op' : ℕ → Pick R P) (depth n : ℕ) : Prop :=
  quiet op n 0 = true ∧ quiet op' n 0 = true ∧
    ∀ p ∈ leafRanges depth 0 n, (kept op (p.2 - p.1) p.1).length = (kept op' (p.2 - p.1) p.1).length

theorem count_map_range (f : ℕ → ℕ) {k i : ℕ} (hi : i < k) : (ctxOf ((List.range k).map f)).count i = f i := by
  simp [PlaceCtx.count, ctxOf, List.getD_eq_getElem?_getD, hi]

/-- counts stored by the first pass are met by the second exactly when the passes agree -/
theorem matched_iff_agree {op op' : ℕ → Pick R P} {depth n : ℕ} {stored : ℕ → ℕ} (hq : quiet op n 0 = true)
    (hc : Counted op (leafRanges depth 0 n) 0 stored) :
    Matched op' (ctxOf ((List.range (leafRanges depth 0 n).length).map stored)) (leafRanges depth 0 n) 0 ↔ Agree op op' depth n := by
  have hquiet := (keptOf_tiles op' (leafRanges_tiles depth (Nat.zero_le n))).2
  rw [Nat.sub_zero] at hquiet
  unfold Matched Agree
  rw [hquiet]
  constructor
  · rintro ⟨hq', hc'⟩
    refine ⟨hq, hq', fun p hp => ?_⟩
    obtain ⟨i, hi⟩ := List.getElem?_of_mem hp
    have hlt := (List.getElem?_eq_some_iff.1 hi).1
    have h' := hc' i p hi
    rw [count_map_range stored (by omega)] at h'
    rw [← hc i p hi, h']
  · rintro ⟨-, hq', hall⟩
    refine ⟨hq', fun i p hi => ?_⟩
    have hlt := (List.getElem?_eq_some_iff.1 hi).1
    rw [count_map_range stored (by omega), hc i p hi]
    exact hall p (List.mem_of_getElem? hi)

/-- **Count-then-place.** When the two passes agree the call returns the survivors of the place pass, and no other slot is live;
otherwise it unwinds with no slot live. Nothing illegal happens either way. -/
theorem ctp_spec (op op' : ℕ → Pick R P) (turn turn' : ℕ → ℕ → Turn) (n depth : ℕ) :
    (fusedFilterCollectByRefCtp op op' turn turn' n depth).2.faults = 0 ∧
      (Agree op op' depth n → (fusedFilterCollectByRefCtp op op' turn turn' n depth).1 = .ok (some (kept op' n 0)) ∧
        Filled 0 (kept op' n 0) (fusedFilterCollectByRefCtp op op' turn turn' n depth).2 ∧
        ∀ i, (kept op' n 0).length ≤ i → (fusedFilterCollectByRefCtp op op' turn turn' n depth).2.output i = .unwritten) ∧
      (¬ Agree op op' depth n → (∃ p, (fusedFilterCollectByRefCtp op op' turn turn' n depth).1 = .error p) ∧
        ∀ i, (fusedFilterCollectByRefCtp op op' turn turn' n depth).2.output i = .unwritten ∨
          (fusedFilterCollectByRefCtp op op' turn turn' n depth).2.output i = .dropped) := by
  obtain ⟨hgood, hbad⟩ := count_spec op turn depth n fun _ => 0
  obtain ⟨⟨res, stored⟩, hcount⟩ : ∃ c, c = countFilterRec op turn depth 0 n 0 fun _ => 0 := ⟨_, rfl⟩
  rw [← hcount] at hgood hbad
  rcases hq : quiet op n 0 with _ | _
  · -- the count pass unwinds; there is no output yet
    obtain ⟨p, rfl⟩ := hbad hq
    have hrun : fusedFilterCollectByRefCtp op op' turn turn' n depth = (.error (.stage p), Mem.fresh) := by
      simp only [fusedFilterCollectByRefCtp, ← hcount]
    rw [hrun]
    refine ⟨rfl, ?_, fun _ => ⟨⟨_, rfl⟩, fun i => Or.inl rfl⟩⟩
    rintro ⟨hq', -⟩
    rw [hq] at hq'
    cases hq'
  · obtain ⟨rfl, hstored⟩ := hgood hq
    have hleaves : splitLeafCount n depth = (leafRanges depth 0 n).length := by
      rw [← splitLeafCount_eq depth 0 n, Nat.sub_zero]
    obtain ⟨counts, hcounts⟩ : ∃ counts, counts = (List.range (splitLeafCount n depth)).map stored := ⟨_, rfl⟩
    have hlen : counts.length = (leafRanges depth 0 n).length := by rw [hcounts, List.length_map, List.length_range, hleaves]
    have hiff : Matched op' (ctxOf counts) (leafRanges depth 0 n) 0 ↔ Agree op op' depth n := by
      rw [hcounts, hleaves]
      exact matched_iff_agree hq hstored
    obtain ⟨hw, hres⟩ := place_spec op' counts turn' hlen
    obtain ⟨⟨res, m⟩, hplace⟩ : ∃ r, r = placeFilterRec op' (ctxOf counts) turn' depth 0 n 0 Mem.fresh := ⟨_, rfl⟩
    rw [← hplace] at hw hres
    have htotal : (scanCounts counts [] 0).2 = counts.sum := by rw [scanCounts_eq, Nat.zero_add]
    rcases hres with ⟨rfl, hmatch, hsum, hf⟩ | ⟨⟨p, rfl⟩, hno, hv⟩
    · have hrun : fusedFilterCollectByRefCtp op op' turn turn' n depth = (.ok (intoVec m counts.sum), m) := by
        simp only [fusedFilterCollectByRefCtp, ← hcount, ← hcounts, htotal]
        rw [← ctxOf, ← hplace]
      rw [hrun]
      refine ⟨hw.legal, fun _ => ⟨?_, hf, ?_⟩, fun hna => absurd (hiff.1 hmatch) hna⟩
      · rw [hsum, intoVec_filled hf]
      · intro i hi
        rw [hw.outside i (Or.inr (by omega))]
        rfl
    · have hrun : fusedFilterCollectByRefCtp op op' turn turn' n depth = (.error p, m) := by
        simp only [fusedFilterCollectByRefCtp, ← hcount, ← hcounts]
        rw [← ctxOf, ← hplace]
      rw [hrun]
      refine ⟨hw.legal, fun ha => absurd (hiff.2 ha) hno, fun _ => ⟨⟨p, rfl⟩, ?_⟩⟩
      intro i
      rcases Nat.lt_or_ge i counts.sum with hlt | hge
      · exact hv i (Nat.zero_le i) hlt
      · left
        rw [hw.outside i (Or.inr hge)]
        rfl

end YouPipe.Fused
