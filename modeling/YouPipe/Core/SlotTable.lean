/-
Direct-mapped tables. A table is a list of slots of any type; `key` reads the key of an occupied slot and is `none` on
an empty one. `Placed` says that every occupied slot sits at its key modulo the table size, so two occupied slots never
share a residue and a lookup is one probe. The lemmas say how the multiset of occupied slots (`live`) changes when one
slot is filled, emptied or overwritten, and that re-placing the occupied slots into a larger table loses none of them as
long as their residues stay distinct.
-/
import Mathlib.Tactic

namespace YouPipe.SlotTable

variable {σ : Type} (key : σ → Option ℕ)

/-- the occupied slots, in index order -/
def live (t : List σ) : List σ := t.filter fun s => (key s).isSome

/-- every occupied slot sits at its key modulo the table size -/
def Placed (t : List σ) : Prop := ∀ i s k, t[i]? = some s → key s = some k → k % t.length = i

/-- re-place the occupied slots of `t` into a table of `size` empty slots -/
def rehash (size : ℕ) (empty : σ) (t : List σ) : List σ :=
  t.foldl (fun acc s => match key s with
    | none => acc
    | some k => acc.set (k % size) s) (List.replicate size empty)

theorem live_append (a b : List σ) : live key (a ++ b) = live key a ++ live key b := List.filter_append _ _

theorem live_cons_none {s : σ} (t : List σ) (h : key s = none) : live key (s :: t) = live key t := by
  simp [live, h]

theorem live_cons_some {s : σ} {k : ℕ} (t : List σ) (h : key s = some k) : live key (s :: t) = s :: live key t := by
  simp [live, h]

theorem mem_live {t : List σ} {s : σ} : s ∈ live key t ↔ s ∈ t ∧ ∃ k, key s = some k := by
  simp [live, Option.isSome_iff_exists]

theorem split_at {t : List σ} {i : ℕ} {s : σ} (h : t[i]? = some s) :
    ∃ a b, t = a ++ s :: b ∧ a.length = i ∧ ∀ x, t.set i x = a ++ x :: b := by
  obtain ⟨hi, rfl⟩ := List.getElem?_eq_some_iff.1 h
  refine ⟨t.take i, t.drop (i + 1), ?_, by simp; omega, fun x => ?_⟩
  · simp
  · rw [List.set_eq_take_append_cons_drop, if_pos hi]

/-- filling an empty slot adds one live slot -/
theorem live_fill {t : List σ} {i : ℕ} {e s : σ} {k : ℕ} (h : t[i]? = some e) (he : key e = none)
    (hs : key s = some k) : (live key (t.set i s)).Perm (s :: live key t) := by
  obtain ⟨a, b, rfl, -, hset⟩ := split_at h
  rw [hset, live_append, live_append, live_cons_none key b he, live_cons_some key b hs]
  exact List.perm_middle

/-- emptying an occupied slot removes exactly that slot -/
theorem live_clear {t : List σ} {i : ℕ} {e s : σ} {k : ℕ} (h : t[i]? = some s) (he : key e = none)
    (hs : key s = some k) : (live key t).Perm (s :: live key (t.set i e)) := by
  obtain ⟨a, b, rfl, -, hset⟩ := split_at h
  rw [hset, live_append, live_append, live_cons_none key b he, live_cons_some key b hs]
  exact List.perm_middle

theorem placed_set {t : List σ} (hp : Placed key t) (i : ℕ) (s : σ) (hs : ∀ k, key s = some k → k % t.length = i) :
    Placed key (t.set i s) := by
  intro j x k hx hk
  rw [List.length_set]
  rw [List.getElem?_set] at hx
  split_ifs at hx with hij hi
  · cases hx; rw [hs k hk, hij]
  · exact hp j x k hx hk

theorem placed_replicate (size : ℕ) {empty : σ} (he : key empty = none) : Placed key (List.replicate size empty) := by
  intro i s k hs hk
  rw [List.getElem?_replicate] at hs
  split_ifs at hs
  cases hs; rw [he] at hk; cases hk

theorem live_replicate (size : ℕ) {empty : σ} (he : key empty = none) : live key (List.replicate size empty) = [] := by
  unfold live
  rw [List.filter_eq_nil_iff]
  intro s hs
  rw [List.eq_of_mem_replicate hs, he]; simp

/-- the occupied slots of a placed table have pairwise distinct residues -/
theorem Placed.pairwise {t : List σ} (hp : Placed key t) :
    (live key t).Pairwise fun a b => ∀ ka kb, key a = some ka → key b = some kb → ka % t.length ≠ kb % t.length := by
  refine List.Pairwise.filter _ (List.pairwise_iff_getElem.2 fun i j hi hj hij ka kb hka hkb h => ?_)
  have h1 := hp i _ ka (List.getElem?_eq_getElem hi) hka
  have h2 := hp j _ kb (List.getElem?_eq_getElem hj) hkb
  omega

/-- residues that are distinct modulo the table size stay distinct modulo every multiple of it -/
theorem Placed.pairwise_of_dvd {t : List σ} (hp : Placed key t) {size : ℕ} (hdvd : t.length ∣ size) :
    (live key t).Pairwise fun a b => ∀ ka kb, key a = some ka → key b = some kb → ka % size ≠ kb % size := by
  refine (hp.pairwise key).imp fun {a b} hab ka kb hka hkb heq => hab ka kb hka hkb ?_
  rw [← Nat.mod_mod_of_dvd ka hdvd, ← Nat.mod_mod_of_dvd kb hdvd, heq]

/-- the re-placement loop, with the slots placed so far in `acc` -/
theorem rehash_fold {size : ℕ} (hsize : 0 < size) (t acc : List σ) (hlen : acc.length = size) (hacc : Placed key acc)
    (hd : (live key acc ++ live key t).Pairwise fun a b =>
      ∀ ka kb, key a = some ka → key b = some kb → ka % size ≠ kb % size) :
    let r := t.foldl (fun acc s => match key s with
      | none => acc
      | some k => acc.set (k % size) s) acc
    r.length = size ∧ Placed key r ∧ (live key r).Perm (live key acc ++ live key t) := by
  induction t generalizing acc with
  | nil => exact ⟨hlen, hacc, by simp [live]⟩
  | cons s t ih =>
    cases hk : key s with
    | none =>
      simp only [List.foldl_cons, hk]
      rw [live_cons_none key t hk] at hd ⊢
      exact ih acc hlen hacc hd
    | some k =>
      simp only [List.foldl_cons, hk]
      rw [live_cons_some key t hk] at hd ⊢
      obtain ⟨e, he⟩ : ∃ e, acc[k % size]? = some e :=
        ⟨_, List.getElem?_eq_getElem (by rw [hlen]; exact Nat.mod_lt _ hsize)⟩
      -- an occupied target slot would share its residue with `s`
      have hempty : key e = none := by
        cases hke : key e with
        | none => rfl
        | some k' =>
          have hmem : e ∈ live key acc := (mem_live key).2 ⟨List.mem_of_getElem? he, k', hke⟩
          have hres : k' % size = k % size := by rw [← hlen]; exact hlen ▸ hacc _ e k' he hke
          exact absurd hres ((List.pairwise_append.1 hd).2.2 e hmem s List.mem_cons_self k' k hke hk)
      have hfill := live_fill key he hempty hk
      have hd' : (live key (acc.set (k % size) s) ++ live key t).Pairwise fun a b =>
          ∀ ka kb, key a = some ka → key b = some kb → ka % size ≠ kb % size := by
        refine List.Pairwise.perm hd ?_ fun h ka kb hka hkb => (h kb ka hkb hka).symm
        exact List.perm_middle.trans (hfill.symm.append_right _)
      obtain ⟨h1, h2, h3⟩ := ih (acc.set (k % size) s) (by simp [hlen])
        (placed_set key hacc _ _ fun k' hk' => by rw [hk] at hk'; cases hk'; rw [hlen]) hd'
      refine ⟨h1, h2, h3.trans ((hfill.append_right _).trans List.perm_middle.symm)⟩

/-- **Re-placement loses nothing.** If the live slots of `t` have pairwise distinct residues modulo `size`, the new table
has `size` slots, is placed, and holds exactly the live slots of `t`. -/
theorem rehash_spec {size : ℕ} (hsize : 0 < size) {empty : σ} (he : key empty = none) (t : List σ)
    (hd : (live key t).Pairwise fun a b => ∀ ka kb, key a = some ka → key b = some kb → ka % size ≠ kb % size) :
    (rehash key size empty t).length = size ∧ Placed key (rehash key size empty t) ∧
      (live key (rehash key size empty t)).Perm (live key t) := by
  have h := rehash_fold key hsize t (List.replicate size empty) (by simp) (placed_replicate key size he)
    (by rw [live_replicate key size he]; exact hd)
  rwa [live_replicate key size he] at h

end YouPipe.SlotTable
