/-
What a ring of slots holds, as a list: `Window cap head buffer l` says that the slots from position `head` on are those of `l`, and
that the rest of the lap is empty. Positions run freely, position `p` is in slot `p % cap`.
-/
import Mathlib.Tactic

namespace YouPipe.Ring

variable {T : Type} {cap head : ℕ} {buffer : ℕ → Option T} {l : List (Option T)}

def Window (cap head : ℕ) (buffer : ℕ → Option T) (l : List (Option T)) : Prop :=
  ∀ k, k < cap → buffer ((head + k) % cap) = l[k]?.join

/-- two positions of one lap are in different slots -/
theorem slot_inj {i k : ℕ} (hi : i < cap) (hk : k < cap) (h : (head + i) % cap = (head + k) % cap) : i = k := by
  have hmod : i ≡ k [MOD cap] := Nat.ModEq.add_left_cancel' head h
  exact hmod.eq_of_lt_of_lt hi hk

theorem window_empty (cap head : ℕ) : Window cap head (fun _ => (none : Option T)) [] := fun _ _ => rfl

theorem Window.get (h : Window cap head buffer l) {k : ℕ} {x : Option T} (hk : k < cap) (hx : l[k]? = some x) :
    buffer ((head + k) % cap) = x := by
  rw [h k hk, hx]
  rfl

/-- the slot after the last one -/
theorem Window.next (h : Window cap head buffer l) (hlen : l.length < cap) : buffer ((head + l.length) % cap) = none := by
  rw [h _ hlen, List.getElem?_eq_none le_rfl]
  rfl

theorem Window.set (h : Window cap head buffer l) {k : ℕ} (hk : k < l.length) (hle : l.length ≤ cap) (x : Option T) :
    Window cap head (Function.update buffer ((head + k) % cap) x) (l.set k x) := by
  intro i hi
  by_cases hik : i = k
  · subst hik
    rw [Function.update_self, List.getElem?_set_self hk]
    rfl
  · have hslot : (head + i) % cap ≠ (head + k) % cap := fun heq => hik (slot_inj hi (by omega) heq)
    rw [Function.update_of_ne hslot, List.getElem?_set_ne (Ne.symm hik)]
    exact h i hi

theorem Window.push (h : Window cap head buffer l) (hlen : l.length < cap) (x : Option T) :
    Window cap head (Function.update buffer ((head + l.length) % cap) x) (l ++ [x]) := by
  intro i hi
  by_cases hik : i = l.length
  · subst hik
    rw [Function.update_self, List.getElem?_concat_length]
    rfl
  · have hslot : (head + i) % cap ≠ (head + l.length) % cap := fun heq => hik (slot_inj hi hlen heq)
    rw [Function.update_of_ne hslot, h i hi]
    rcases Nat.lt_or_gt_of_ne hik with hlt | hgt
    · rw [List.getElem?_append_left hlt]
    · rw [List.getElem?_eq_none (by omega), List.getElem?_eq_none (by rw [List.length_append, List.length_singleton]; omega)]

/-- an empty slot at the end is as good as none -/
theorem Window.trim (h : Window cap head buffer (l ++ [none])) : Window cap head buffer l := by
  intro i hi
  rw [h i hi]
  rcases lt_trichotomy i l.length with hlt | rfl | hgt
  · rw [List.getElem?_append_left hlt]
  · rw [List.getElem?_concat_length, List.getElem?_eq_none le_rfl]
    rfl
  · rw [List.getElem?_eq_none (by rw [List.length_append, List.length_singleton]; omega), List.getElem?_eq_none (by omega)]

theorem Window.pop {x : Option T} (h : Window cap head buffer (l ++ [x])) (hlen : l.length < cap) :
    Window cap head (Function.update buffer ((head + l.length) % cap) none) l := by
  have hset := h.set (k := l.length) (by simp) (by simpa using hlen) none
  have hlast : (l ++ [x]).set l.length none = l ++ [none] := by simp
  rw [hlast] at hset
  exact hset.trim

/-- empty slots at the front are given back -/
theorem Window.shift {m : ℕ} (h : Window cap head buffer (List.replicate m none ++ l)) (hlen : m + l.length ≤ cap) :
    Window cap (head + m) buffer l := by
  intro k hk
  by_cases hmk : m + k < cap
  · have hslot := h (m + k) hmk
    rw [List.getElem?_append_right (by rw [List.length_replicate]; omega), List.length_replicate, Nat.add_sub_cancel_left] at hslot
    rw [← hslot, Nat.add_assoc]
  · -- past the end of the old lap: one of the slots that were given back
    have hslot := h (m + k - cap) (by omega)
    have hwrap : (head + m + k) % cap = (head + (m + k - cap)) % cap := by
      rw [show head + m + k = head + (m + k - cap) + cap by omega, Nat.add_mod_right]
    rw [hwrap, hslot, List.getElem?_append_left (by rw [List.length_replicate]; omega), List.getElem?_replicate_of_lt (by omega),
      List.getElem?_eq_none (by omega)]
    rfl

end YouPipe.Ring
