/-
Positions of a ring buffer, packed into one machine word: the low bits are an index into the buffer, the high bits count the
laps. A ring of `cap` slots has laps of `lap > cap` words, the indices from `cap` on are never used, and after `turns` laps the
word starts again at 0.

`word p` is the word of the `p`-th position. `advance` moves a word by one position (`advance_word`), adding `lap` moves it by a
whole buffer (`word_add_lap`), and two positions less than `period` apart have different words (`word_inj`).
-/
import Mathlib.Tactic
import YouPipe.Core.Word

namespace YouPipe.Ring

structure Laps where
  cap : ℕ
  /-- the words of one lap: `{ lap: 1, index: 0 }` -/
  lap : ℕ
  /-- the laps a word can count -/
  turns : ℕ
  bits : ℕ
  lap_eq : lap = 2 ^ bits
  cap_pos : 0 < cap
  cap_lt : cap < lap
  two_le : 2 ≤ turns

namespace Laps

variable (L : Laps)

/-- all words -/
def size : ℕ := L.lap * L.turns

/-- the positions before a word comes back -/
def period : ℕ := L.cap * L.turns

def index (w : ℕ) : ℕ := w &&& (L.lap - 1)

/-- the word with its index cleared, `w & !(one_lap - 1)` -/
def base (w : ℕ) : ℕ := w - L.index w

/-- the word one position on: same lap, or index 0 of the next one -/
def advance (w : ℕ) : ℕ := if L.index w + 1 < L.cap then w + 1 else (L.base w + L.lap) % L.size

/-- the word of the `p`-th position -/
def word (p : ℕ) : ℕ := p / L.cap % L.turns * L.lap + p % L.cap

/-- the number of items between two words, at most a whole buffer -/
def len (head tail : ℕ) : ℕ :=
  if L.index head < L.index tail then L.index tail - L.index head
  else if L.index tail < L.index head then L.cap - L.index head + L.index tail
  else if tail = head then 0
  else L.cap

/-- the slot `i` places after slot `start`, at most one time round -/
def slotAt (start i : ℕ) : ℕ := if start + i < L.cap then start + i else start + i - L.cap

variable {L} {p q n : ℕ}

theorem lap_pos : 0 < L.lap := Nat.zero_lt_of_lt L.cap_lt

theorem turns_pos : 0 < L.turns := Nat.lt_of_lt_of_le Nat.two_pos L.two_le

theorem period_pos : 0 < L.period := Nat.mul_pos L.cap_pos turns_pos

theorem cap_lt_period : L.cap < L.period := by
  calc L.cap < L.cap * 2 := by have := L.cap_pos; omega
    _ ≤ L.period := Nat.mul_le_mul_left _ L.two_le

theorem index_eq (w : ℕ) : L.index w = w % L.lap := by
  unfold index
  rw [L.lap_eq, Nat.and_two_pow_sub_one_eq_mod]

theorem mod_lt (p : ℕ) : p % L.cap < L.cap := Nat.mod_lt p L.cap_pos

theorem index_word (p : ℕ) : L.index (L.word p) = p % L.cap := by
  rw [index_eq, word, Nat.mul_add_mod_of_lt ((mod_lt p).trans L.cap_lt)]

/-- one past a word does not overflow, the index has room -/
theorem word_succ_lt (p : ℕ) : L.word p + 1 < L.size := by
  have hturn : p / L.cap % L.turns + 1 ≤ L.turns := Nat.mod_lt _ turns_pos
  have hidx : p % L.cap + 1 < L.lap := Nat.lt_of_le_of_lt (mod_lt p) L.cap_lt
  calc L.word p + 1 < p / L.cap % L.turns * L.lap + L.lap := by unfold word; omega
    _ = (p / L.cap % L.turns + 1) * L.lap := by ring
    _ ≤ L.turns * L.lap := Nat.mul_le_mul_right _ hturn
    _ = L.size := Nat.mul_comm _ _

/-- whole laps wrap around together -/
theorem laps_mod (k : ℕ) : k * L.lap % L.size = k % L.turns * L.lap := by
  rw [size, Nat.mul_comm L.lap, Nat.mul_mod_mul_right]

/-- within a lap words are consecutive -/
theorem word_add (h : p % L.cap + n < L.cap) : L.word (p + n) = L.word p + n := by
  have hdiv := Nat.div_add_mod p L.cap
  have hp : p + n = L.cap * (p / L.cap) + (p % L.cap + n) := by omega
  have hq : (p + n) / L.cap = p / L.cap := by rw [hp, Nat.mul_add_div L.cap_pos, Nat.div_eq_of_lt h, Nat.add_zero]
  have hr : (p + n) % L.cap = p % L.cap + n := by rw [hp, Nat.mul_add_mod, Nat.mod_eq_of_lt h]
  rw [word, word, hq, hr, Nat.add_assoc]

theorem advance_word (p : ℕ) : L.advance (L.word p) = L.word (p + 1) := by
  have hdiv := Nat.div_add_mod p L.cap
  have hlt := mod_lt (L := L) p
  unfold advance
  rw [index_word]
  split_ifs with h
  · exact (word_add h).symm
  · have hq : p + 1 = L.cap * (p / L.cap + 1) := by
      rw [Nat.mul_add]
      omega
    have hbase : L.base (L.word p) = p / L.cap % L.turns * L.lap := by
      rw [base, index_word, word, Nat.add_sub_cancel]
    have hnext : L.word (p + 1) = (p / L.cap + 1) % L.turns * L.lap := by
      rw [word, hq, Nat.mul_div_cancel_left _ L.cap_pos, Nat.mul_mod_right, Nat.add_zero]
    calc (L.base (L.word p) + L.lap) % L.size = (p / L.cap % L.turns + 1) * L.lap % L.size := by rw [hbase, Nat.succ_mul]
      _ = (p / L.cap % L.turns + 1) % L.turns * L.lap := laps_mod _
      _ = L.word (p + 1) := by rw [hnext, Nat.mod_add_mod]

theorem word_add_lap (p : ℕ) : (L.word p + L.lap) % L.size = L.word (p + L.cap) := by
  have hidx : p % L.cap < L.lap := (mod_lt p).trans L.cap_lt
  have hsplit : L.word p + L.lap = (p / L.cap % L.turns + 1) * L.lap + p % L.cap := by
    rw [word]
    ring
  rw [hsplit, word, Nat.add_div_right _ L.cap_pos, Nat.add_mod_right]
  rw [Nat.add_mod, laps_mod, Nat.mod_add_mod]
  have hturn : (p / L.cap + 1) % L.turns + 1 ≤ L.turns := Nat.mod_lt _ turns_pos
  have hle : ((p / L.cap + 1) % L.turns + 1) * L.lap ≤ L.size := by
    rw [size, Nat.mul_comm L.lap]
    exact Nat.mul_le_mul_right _ hturn
  have hsize : L.lap ≤ L.size := Nat.le_mul_of_pos_right _ turns_pos
  rw [Nat.mod_eq_of_lt (a := p % L.cap) (by omega)]
  refine Nat.mod_eq_of_lt ?_
  rw [Nat.succ_mul] at hle
  omega

theorem word_eq (h : L.word p = L.word q) : p / L.cap % L.turns = q / L.cap % L.turns ∧ p % L.cap = q % L.cap := by
  have hmod : p % L.cap = q % L.cap := by rw [← index_word p, h, index_word]
  refine ⟨?_, hmod⟩
  unfold word at h
  rw [hmod] at h
  exact Nat.eq_of_mul_eq_mul_right lap_pos (Nat.add_right_cancel h)

/-- positions less than a period apart have different words -/
theorem word_inj (h : L.word p = L.word q) (hle : p ≤ q) (hlt : q < p + L.period) : p = q := by
  obtain ⟨hturn, hmod⟩ := word_eq h
  have hp := Nat.div_add_mod p L.cap
  have hq := Nat.div_add_mod q L.cap
  have hdiv : p / L.cap ≤ q / L.cap := Nat.div_le_div_right hle
  have hgap : q / L.cap - p / L.cap < L.turns := by
    by_contra hge
    have hmul : L.cap * L.turns ≤ L.cap * (q / L.cap - p / L.cap) := Nat.mul_le_mul_left _ (Nat.le_of_not_lt hge)
    rw [Nat.mul_sub] at hmul
    unfold period at hlt
    omega
  have hzero : q / L.cap - p / L.cap = 0 := by
    have hdvd : (q / L.cap - p / L.cap) % L.turns = 0 := Nat.sub_mod_eq_zero_of_mod_eq hturn.symm
    rwa [Nat.mod_eq_of_lt hgap] at hdvd
  have heq : p / L.cap = q / L.cap := by omega
  rw [heq, hmod] at hp
  omega

/-- the stamp of a full slot is no word of a position of this slot -/
theorem word_succ_ne (h : p % L.cap = q % L.cap) : L.word p + 1 ≠ L.word q := by
  intro heq
  have hidx : (L.word p + 1) % L.lap = q % L.cap := by rw [heq, ← index_eq, index_word]
  rw [word, Nat.add_assoc, Nat.mul_add_mod_of_lt (Nat.lt_of_le_of_lt (mod_lt p) L.cap_lt)] at hidx
  omega

/-- below a period words grow with their positions -/
theorem word_lt_word (hlt : p < q) (hq : q < L.period) : L.word p < L.word q := by
  have hdiv : p / L.cap ≤ q / L.cap := Nat.div_le_div_right hlt.le
  have hturn : q / L.cap < L.turns := Nat.div_lt_of_lt_mul hq
  have hp := Nat.div_add_mod p L.cap
  have hq := Nat.div_add_mod q L.cap
  have hidx : p % L.cap < L.lap := (mod_lt p).trans L.cap_lt
  unfold word
  rw [Nat.mod_eq_of_lt hturn, Nat.mod_eq_of_lt (Nat.lt_of_le_of_lt hdiv hturn)]
  rcases Nat.lt_or_eq_of_le hdiv with hless | heq
  · have hlap : (p / L.cap + 1) * L.lap ≤ q / L.cap * L.lap := Nat.mul_le_mul_right _ hless
    rw [Nat.succ_mul] at hlap
    omega
  · rw [heq] at hp ⊢
    omega

theorem iterate_advance (p n : ℕ) : L.advance^[n] (L.word p) = L.word (p + n) := by
  induction n with
  | zero => rfl
  | succ n ih => rw [Function.iterate_succ_apply', ih, advance_word, Nat.add_assoc]

theorem slotAt_mod (p : ℕ) {i : ℕ} (h : i < L.cap) : L.slotAt (p % L.cap) i = (p + i) % L.cap := by
  have hlt := mod_lt (L := L) p
  have hsum : (p + i) % L.cap = (p % L.cap + i) % L.cap := (Nat.mod_add_mod p L.cap i).symm
  rw [hsum, slotAt]
  split_ifs with hroom
  · exact (Nat.mod_eq_of_lt hroom).symm
  · exact ((Nat.mod_eq_sub_mod (Nat.le_of_not_lt hroom)).trans (Nat.mod_eq_of_lt (by omega))).symm

theorem len_word (hle : p ≤ q) (hroom : q ≤ p + L.cap) : L.len (L.word p) (L.word q) = q - p := by
  have hlt := mod_lt (L := L) p
  have hcap := L.cap_lt_period
  obtain ⟨d, rfl⟩ := Nat.exists_eq_add_of_le hle
  unfold len
  rw [index_word, index_word, Nat.add_sub_cancel_left]
  rcases Nat.lt_or_eq_of_le (Nat.le_of_add_le_add_left hroom) with hd | rfl
  · rw [← slotAt_mod p hd, slotAt]
    by_cases hwrap : p % L.cap + d < L.cap
    · rw [if_pos hwrap]
      rcases Nat.eq_zero_or_pos d with rfl | hpos
      · rw [Nat.add_zero, if_neg (Nat.lt_irrefl _), if_neg (Nat.lt_irrefl _), Nat.add_zero, if_pos rfl]
      · rw [if_pos (by omega)]
        omega
    · rw [if_neg hwrap, if_neg (by omega), if_pos (by omega)]
      omega
  · have hne : L.word (p + L.cap) ≠ L.word p := fun h => by
      have hsame := word_inj h.symm (Nat.le_add_right _ _) (by omega)
      have hpos := L.cap_pos
      omega
    rw [Nat.add_mod_right, if_neg (Nat.lt_irrefl _), if_neg (Nat.lt_irrefl _), if_neg hne]

end Laps

/-! ## Cursors and slots -/

/-- a word that moves through the positions, and how often it moved -/
structure Cursor where
  word : ℕ
  moves : ℕ
deriving DecidableEq, Repr

def Cursor.advance (L : Laps) (c : Cursor) : Cursor := ⟨L.advance c.word, c.moves + 1⟩

structure Slot (T : Type) where
  stamp : ℕ
  value : Option T
deriving DecidableEq, Repr

/-- positions of one window of `cap` have different slots -/
theorem slot_ne {cap lo p q : ℕ} (hp : lo ≤ p) (hp' : p < lo + cap) (hq : lo ≤ q) (hq' : q < lo + cap) (hne : p ≠ q) :
    p % cap ≠ q % cap := by
  intro h
  have hpq : p ≡ q [MOD cap] := h
  rcases Nat.lt_or_gt_of_ne hne with hlt | hlt
  · have hle := Nat.le_of_dvd (by omega) ((Nat.modEq_iff_dvd' hlt.le).1 hpq)
    omega
  · have hle := Nat.le_of_dvd (by omega) ((Nat.modEq_iff_dvd' hlt.le).1 hpq.symm)
    omega

end YouPipe.Ring
