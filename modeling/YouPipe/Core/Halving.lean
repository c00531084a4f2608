/-
Fork/join recursions over a halved range. A range is halved until the split budget is spent or at most one item is left; leaves
are numbered from left to right, so a call that gets the number of its first leaf knows the number of every leaf below it. The
two halves of a node are the sides of a join and work on one state.

The second side is popped back after the first has finished, or stolen; a stolen side runs before the first or after it. Sides
that touch different parts of the state cannot tell these apart, and neither can any finer interleaving.

- `Proof`: what has to be shown of a leaf, of a node, and of the parts of the state they touch.
- `halve_spec`: then the whole recursion has the property, under every schedule.
-/
import Mathlib.Tactic
import YouPipe.Core.Tiling

namespace YouPipe.Halving

open YouPipe.Tiling

/-- how the second side of a node is run -/
inductive Turn where
  | popped
  | stolen (early : Bool)
deriving DecidableEq, Repr

def Turn.isStolen : Turn → Bool
  | .popped => false
  | .stolen _ => true

variable {S α P : Type}

/-- both sides of a node; an early second side has finished before the first starts -/
def runSides (turn : Turn) (a b : S → α × S) (m : S) : α × α × S :=
  if turn = .stolen true then
    let rb := b m
    let ra := a rb.2
    (ra.1, rb.1, ra.2)
  else
    let ra := a m
    let rb := b ra.2
    (ra.1, rb.1, rb.2)

/-- the recursion on `[s, e)`, whose first leaf has the number `base`; a node gets the numbers of its first leaf, of the first leaf
of its second half and of the leaf behind its last -/
def halve (count : ℕ → ℕ → ℕ) (turn : ℕ → ℕ → Turn) (leaf : ℕ → ℕ → ℕ → S → α × S)
    (node : Turn → ℕ → ℕ → ℕ → α → α → S → α × S) : ℕ → ℕ → ℕ → ℕ → S → α × S
  | 0, s, e, base, m => leaf s e base m
  | splits + 1, s, e, base, m =>
    if e - s ≤ 1 then leaf s e base m
    else
      let mid := s + (e - s) / 2
      let left := count (mid - s) splits
      let r := runSides (turn s e) (halve count turn leaf node splits s mid base)
        (halve count turn leaf node splits mid e (base + left)) m
      node (turn s e) base (base + left) (base + left + count (e - mid) splits) r.1 r.2.1 r.2.2

/-- the leaves of `[s, e)` from left to right -/
def leafRanges : ℕ → ℕ → ℕ → List (ℕ × ℕ)
  | 0, s, e => [(s, e)]
  | splits + 1, s, e =>
    if e - s ≤ 1 then [(s, e)]
    else leafRanges splits s (s + (e - s) / 2) ++ leafRanges splits (s + (e - s) / 2) e

theorem leafRanges_tiles (splits : ℕ) : ∀ {s e : ℕ}, s ≤ e → Tiles s (leafRanges splits s e) e := by
  induction splits with
  | zero => intro s e h; exact .cons h (.nil e)
  | succ splits ih =>
    intro s e h
    unfold leafRanges
    split
    · exact .cons h (.nil e)
    · exact (ih (by omega)).append (ih (by omega))

/-! ## The rule -/

/-- what makes a property of leaves a property of the recursion. `Pre` and `Post` speak of a list of leaves and the number of the
first one; `Touch` bounds what a call on these leaves changes, so that the two halves of a node do not disturb each other. -/
structure Proof (Pre : List (ℕ × ℕ) → ℕ → S → Prop) (Post : List (ℕ × ℕ) → ℕ → α → S → Prop)
    (Touch : List (ℕ × ℕ) → ℕ → S → S → Prop) (leaf : ℕ → ℕ → ℕ → S → α × S)
    (node : Turn → ℕ → ℕ → ℕ → α → α → S → α × S) : Prop where
  leaf : ∀ {s e base : ℕ} {m : S}, s ≤ e → Pre [(s, e)] base m →
    Post [(s, e)] base (leaf s e base m).1 (leaf s e base m).2 ∧ Touch [(s, e)] base m (leaf s e base m).2
  node : ∀ {s mid e base : ℕ} {l r : List (ℕ × ℕ)} {a b : α} {m : S} (turn : Turn), Tiles s l mid → Tiles mid r e →
    Post l base a m → Post r (base + l.length) b m →
    Post (l ++ r) base (node turn base (base + l.length) (base + l.length + r.length) a b m).1
      (node turn base (base + l.length) (base + l.length + r.length) a b m).2 ∧
    Touch (l ++ r) base m (node turn base (base + l.length) (base + l.length + r.length) a b m).2
  fork : ∀ {s mid e base : ℕ} {l r : List (ℕ × ℕ)} {m : S}, Tiles s l mid → Tiles mid r e → Pre (l ++ r) base m →
    Pre l base m ∧ Pre r (base + l.length) m
  left : ∀ {s mid e base : ℕ} {l r : List (ℕ × ℕ)} {m₀ m m' : S}, Tiles s l mid → Tiles mid r e → Pre (l ++ r) base m₀ →
    Touch l base m m' →
    Touch (l ++ r) base m m' ∧ (Pre r (base + l.length) m → Pre r (base + l.length) m') ∧
      ∀ b, Post r (base + l.length) b m → Post r (base + l.length) b m'
  right : ∀ {s mid e base : ℕ} {l r : List (ℕ × ℕ)} {m₀ m m' : S}, Tiles s l mid → Tiles mid r e → Pre (l ++ r) base m₀ →
    Touch r (base + l.length) m m' →
    Touch (l ++ r) base m m' ∧ (Pre l base m → Pre l base m') ∧ ∀ a, Post l base a m → Post l base a m'
  trans : ∀ {base : ℕ} {l : List (ℕ × ℕ)} {m m' m'' : S}, Touch l base m m' → Touch l base m' m'' → Touch l base m m''

variable {Pre : List (ℕ × ℕ) → ℕ → S → Prop} {Post : List (ℕ × ℕ) → ℕ → α → S → Prop}
  {Touch : List (ℕ × ℕ) → ℕ → S → S → Prop} {leaf : ℕ → ℕ → ℕ → S → α × S}
  {node : Turn → ℕ → ℕ → ℕ → α → α → S → α × S}

/-- the two sides in either order -/
theorem Proof.sides (h : Proof Pre Post Touch leaf node) {s mid e base : ℕ} {l r : List (ℕ × ℕ)} (hl : Tiles s l mid)
    (hr : Tiles mid r e) {a b : S → α × S} (ha : ∀ m, Pre l base m → Post l base (a m).1 (a m).2 ∧ Touch l base m (a m).2)
    (hb : ∀ m, Pre r (base + l.length) m → Post r (base + l.length) (b m).1 (b m).2 ∧ Touch r (base + l.length) m (b m).2)
    (turn : Turn) {m : S} (hm : Pre (l ++ r) base m) :
    Post l base (runSides turn a b m).1 (runSides turn a b m).2.2 ∧
      Post r (base + l.length) (runSides turn a b m).2.1 (runSides turn a b m).2.2 ∧
      Touch (l ++ r) base m (runSides turn a b m).2.2 := by
  obtain ⟨hml, hmr⟩ := h.fork hl hr hm
  unfold runSides
  split
  · obtain ⟨hpb, htb⟩ := hb m hmr
    obtain ⟨hwb, hkeep, -⟩ := h.right hl hr hm htb
    obtain ⟨hpa, hta⟩ := ha _ (hkeep hml)
    obtain ⟨hwa, -, hkeep'⟩ := h.left hl hr hm hta
    exact ⟨hpa, hkeep' _ hpb, h.trans hwb hwa⟩
  · obtain ⟨hpa, hta⟩ := ha m hml
    obtain ⟨hwa, hkeep, -⟩ := h.left hl hr hm hta
    obtain ⟨hpb, htb⟩ := hb _ (hkeep hmr)
    obtain ⟨hwb, -, hkeep'⟩ := h.right hl hr hm htb
    exact ⟨hkeep' _ hpa, hpb, h.trans hwa hwb⟩

/-- **The recursion**, by induction on the split budget -/
theorem halve_spec (h : Proof Pre Post Touch leaf node) {count : ℕ → ℕ → ℕ}
    (hcount : ∀ splits s e, count (e - s) splits = (leafRanges splits s e).length) (turn : ℕ → ℕ → Turn) (splits : ℕ) :
    ∀ {s e : ℕ} (base : ℕ) (m : S), s ≤ e → Pre (leafRanges splits s e) base m →
      Post (leafRanges splits s e) base (halve count turn leaf node splits s e base m).1
        (halve count turn leaf node splits s e base m).2 ∧
      Touch (leafRanges splits s e) base m (halve count turn leaf node splits s e base m).2 := by
  induction splits with
  | zero => intro s e base m hs hm; exact h.leaf hs hm
  | succ splits ih =>
    intro s e base m hs hm
    by_cases hleaf : e - s ≤ 1
    · simp only [halve, leafRanges, hleaf, if_true] at hm ⊢
      exact h.leaf hs hm
    · obtain ⟨mid, hmid⟩ : ∃ mid, mid = s + (e - s) / 2 := ⟨_, rfl⟩
      have hlo : s ≤ mid := by omega
      have hhi : mid ≤ e := by omega
      simp only [halve, leafRanges, hleaf, if_false, ← hmid, hcount] at hm ⊢
      have hl := leafRanges_tiles splits hlo
      have hr := leafRanges_tiles splits hhi
      obtain ⟨hpa, hpb, ht⟩ := h.sides hl hr (fun m hm => ih _ m hlo hm) (fun m hm => ih _ m hhi hm) (turn s e) hm
      obtain ⟨hpost, htouch⟩ := h.node (turn s e) hl hr hpa hpb
      exact ⟨hpost, h.trans ht htouch⟩

end YouPipe.Halving
