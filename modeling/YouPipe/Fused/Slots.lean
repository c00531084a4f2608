/-
The shared buffers of the fused core (`builder/typed/slots.rs`). An index run owns an input and an output buffer of the same
length; every slot is moved, written and dropped by raw pointer, so nothing but the control flow keeps the accesses legal.
The model gives each slot a status and counts the illegal accesses: moving or dropping an input that is gone, writing an
output that has been written, dropping an output that is not live.

`Touches s e` says that a piece of code leaves everything outside `[s, e)` alone and never uncounts an illegal access; the
range operations are given exact equations for the case in which every slot of the range is as they expect it.
-/
import Mathlib.Tactic

namespace YouPipe.Fused

/-- an input slot: holds its item, moved into the op, or dropped in place -/
inductive InSlot where
  | live
  | moved
  | dropped
deriving DecidableEq, Repr

inductive OutSlot (R : Type) where
  | unwritten
  | live (r : R)
  | dropped
deriving DecidableEq, Repr

/-- the two buffers and the number of illegal accesses so far -/
structure Mem (R : Type) where
  input : ℕ → InSlot
  output : ℕ → OutSlot R
  faults : ℕ

variable {R : Type}

namespace Mem

/-- a run's buffers before its first step -/
def fresh : Mem R := ⟨fun _ => .live, fun _ => .unwritten, 0⟩

/-- `ptr::read` of an input slot -/
def read (m : Mem R) (i : ℕ) : Mem R :=
  match m.input i with
  | .live => { m with input := Function.update m.input i .moved }
  | _ => { m with faults := m.faults + 1 }

/-- `ptr::write` of an output slot -/
def write (m : Mem R) (i : ℕ) (r : R) : Mem R :=
  match m.output i with
  | .unwritten => { m with output := Function.update m.output i (.live r) }
  | _ => { m with faults := m.faults + 1 }

/-- `drop_in_place` of an input slot -/
def dropIn (m : Mem R) (i : ℕ) : Mem R :=
  match m.input i with
  | .live => { m with input := Function.update m.input i .dropped }
  | _ => { m with faults := m.faults + 1 }

/-- `drop_in_place` of an output slot -/
def dropOut (m : Mem R) (i : ℕ) : Mem R :=
  match m.output i with
  | .live _ => { m with output := Function.update m.output i .dropped }
  | _ => { m with faults := m.faults + 1 }

/-- drop the `n` input slots from `s` on -/
def dropInRange : ℕ → ℕ → Mem R → Mem R
  | 0, _, m => m
  | n + 1, s, m => dropInRange n (s + 1) (m.dropIn s)

/-- `Slots::drop_range` on the `n` output slots from `s` on -/
def dropRange : ℕ → ℕ → Mem R → Mem R
  | 0, _, m => m
  | n + 1, s, m => dropRange n (s + 1) (m.dropOut s)

end Mem

/-! ## What a piece of code may touch -/

/-- nothing outside `[s, e)` changes, and no fault is forgotten -/
structure Touches (s e : ℕ) (m m' : Mem R) : Prop where
  faults : m.faults ≤ m'.faults
  input : ∀ i, i < s ∨ e ≤ i → m'.input i = m.input i
  output : ∀ i, i < s ∨ e ≤ i → m'.output i = m.output i

namespace Touches

variable {s e : ℕ} {m m' m'' : Mem R}

theorem refl (s e : ℕ) (m : Mem R) : Touches s e m m := ⟨le_refl _, fun _ _ => rfl, fun _ _ => rfl⟩

theorem trans (h : Touches s e m m') (h' : Touches s e m' m'') : Touches s e m m'' :=
  ⟨h.faults.trans h'.faults, fun i hi => (h'.input i hi).trans (h.input i hi),
    fun i hi => (h'.output i hi).trans (h.output i hi)⟩

theorem mono {s' e' : ℕ} (h : Touches s e m m') (hs : s' ≤ s) (he : e ≤ e') : Touches s' e' m m' :=
  ⟨h.faults, fun i hi => h.input i (by omega), fun i hi => h.output i (by omega)⟩

theorem read (m : Mem R) (i : ℕ) : Touches i (i + 1) m (m.read i) := by
  unfold Mem.read
  cases m.input i with
  | live => exact ⟨le_refl _, fun j hj => Function.update_of_ne (by omega) _ _, fun _ _ => rfl⟩
  | moved => exact ⟨Nat.le_succ _, fun _ _ => rfl, fun _ _ => rfl⟩
  | dropped => exact ⟨Nat.le_succ _, fun _ _ => rfl, fun _ _ => rfl⟩

theorem write (m : Mem R) (i : ℕ) (r : R) : Touches i (i + 1) m (m.write i r) := by
  unfold Mem.write
  cases m.output i with
  | unwritten => exact ⟨le_refl _, fun _ _ => rfl, fun j hj => Function.update_of_ne (by omega) _ _⟩
  | live _ => exact ⟨Nat.le_succ _, fun _ _ => rfl, fun _ _ => rfl⟩
  | dropped => exact ⟨Nat.le_succ _, fun _ _ => rfl, fun _ _ => rfl⟩

theorem dropIn (m : Mem R) (i : ℕ) : Touches i (i + 1) m (m.dropIn i) := by
  unfold Mem.dropIn
  cases m.input i with
  | live => exact ⟨le_refl _, fun j hj => Function.update_of_ne (by omega) _ _, fun _ _ => rfl⟩
  | moved => exact ⟨Nat.le_succ _, fun _ _ => rfl, fun _ _ => rfl⟩
  | dropped => exact ⟨Nat.le_succ _, fun _ _ => rfl, fun _ _ => rfl⟩

theorem dropOut (m : Mem R) (i : ℕ) : Touches i (i + 1) m (m.dropOut i) := by
  unfold Mem.dropOut
  cases m.output i with
  | unwritten => exact ⟨Nat.le_succ _, fun _ _ => rfl, fun _ _ => rfl⟩
  | live _ => exact ⟨le_refl _, fun _ _ => rfl, fun j hj => Function.update_of_ne (by omega) _ _⟩
  | dropped => exact ⟨Nat.le_succ _, fun _ _ => rfl, fun _ _ => rfl⟩

theorem dropInRange (n s : ℕ) (m : Mem R) : Touches s (s + n) m (m.dropInRange n s) := by
  induction n generalizing s m with
  | zero => exact refl _ _ m
  | succ n ih =>
    have h1 := (dropIn m s).mono (le_refl s) (show s + 1 ≤ s + (n + 1) by omega)
    exact h1.trans ((ih (s + 1) (m.dropIn s)).mono (by omega) (by omega))

theorem dropRange (n s : ℕ) (m : Mem R) : Touches s (s + n) m (m.dropRange n s) := by
  induction n generalizing s m with
  | zero => exact refl _ _ m
  | succ n ih =>
    have h1 := (dropOut m s).mono (le_refl s) (show s + 1 ≤ s + (n + 1) by omega)
    exact h1.trans ((ih (s + 1) (m.dropOut s)).mono (by omega) (by omega))

end Touches

/-! ## The range operations -/

/-- dropping live outputs is legal and marks exactly the range -/
theorem dropRange_live {n s : ℕ} {m : Mem R} (h : ∀ i, s ≤ i → i < s + n → ∃ r, m.output i = .live r) :
    m.dropRange n s = { m with output := fun i => if s ≤ i ∧ i < s + n then .dropped else m.output i } := by
  induction n generalizing s m with
  | zero =>
    have hnone : ∀ i, ¬ (s ≤ i ∧ i < s) := fun i => by omega
    simp [Mem.dropRange, hnone]
  | succ n ih =>
    obtain ⟨r, hr⟩ := h s (le_refl s) (by omega)
    have hstep : m.dropOut s = { m with output := Function.update m.output s .dropped } := by
      simp [Mem.dropOut, hr]
    rw [Mem.dropRange, hstep, ih]
    · congr 1
      funext i
      by_cases his : i = s
      · subst his; simp
      · have hiff : (s + 1 ≤ i ∧ i < s + 1 + n) ↔ (s ≤ i ∧ i < s + (n + 1)) := by omega
        simp only [hiff, Function.update_of_ne his]
    · intro i h1 h2
      obtain ⟨r', hr'⟩ := h i (by omega) (by omega)
      exact ⟨r', by rw [← hr']; exact Function.update_of_ne (by omega) _ _⟩

/-- dropping live inputs is legal and marks exactly the range -/
theorem dropInRange_live {n s : ℕ} {m : Mem R} (h : ∀ i, s ≤ i → i < s + n → m.input i = .live) :
    m.dropInRange n s = { m with input := fun i => if s ≤ i ∧ i < s + n then .dropped else m.input i } := by
  induction n generalizing s m with
  | zero =>
    have hnone : ∀ i, ¬ (s ≤ i ∧ i < s) := fun i => by omega
    simp [Mem.dropInRange, hnone]
  | succ n ih =>
    have hstep : m.dropIn s = { m with input := Function.update m.input s .dropped } := by
      simp [Mem.dropIn, h s (le_refl s) (by omega)]
    rw [Mem.dropInRange, hstep, ih]
    · congr 1
      funext i
      by_cases his : i = s
      · subst his; simp
      · have hiff : (s + 1 ≤ i ∧ i < s + 1 + n) ↔ (s ≤ i ∧ i < s + (n + 1)) := by omega
        simp only [hiff, Function.update_of_ne his]
    · intro i h1 h2
      rw [← h i (by omega) (by omega)]
      exact Function.update_of_ne (by omega) _ _

/-- dropping a range whose first slot is not live is a fault -/
theorem dropRange_fault {n s : ℕ} {m : Mem R} (hn : 0 < n) (h : ∀ r, m.output s ≠ .live r) :
    m.faults < (m.dropRange n s).faults := by
  cases n with
  | zero => omega
  | succ n =>
    have hstep : (m.dropOut s).faults = m.faults + 1 := by
      unfold Mem.dropOut
      cases hm : m.output s with
      | live r => exact absurd hm (h r)
      | unwritten => rfl
      | dropped => rfl
    have := (Touches.dropRange n (s + 1) (m.dropOut s)).faults
    rw [Mem.dropRange]
    omega

end YouPipe.Fused
