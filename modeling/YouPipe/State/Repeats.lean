/-
Repeated seqs in the re-sequencing buffer (`state/reorder.rs`). The buffer is meant to hold and hand over one item per seq.
It keeps to that as long as a call brings a seq that has not been emitted yet and that, if it came before, is found in its own
slot or nowhere (`Accepts`).

The invariant is that of `Resequence`, so a misplaced arrival is allowed: it happens only when the array reaches its ceiling,
from then on nothing is rehashed, and a pair outside its own slot only waits for `flushRemaining`. What repeats add is that the
held seqs stay distinct and at or past the cursor (`Sorted`).

- `single_per_seq`: over any run of accepted calls the output followed by `flushRemaining` is strictly increasing in seq, and
  a repeated seq costs no other seq its item.
- `stale_repeat`: a seq that was already emitted is stored again. It drops the item of another seq, and comes out a second time.
-/
import Mathlib.Tactic
import YouPipe.Core.Word
import YouPipe.Core.SlotTable
import YouPipe.State.Reorder
import YouPipe.State.Resequence

namespace YouPipe.Reorder

open YouPipe.Word YouPipe.SlotTable

variable {α : Type}

/-! ## Model -/

/-- the condition on a call, after the seqs `called`: not emitted yet, and a repeat finds its seq in its own slot, or that slot
free and its seq nowhere. `u64::MAX` is left out: it is stored under the tag of a free slot, so the buffer cannot tell whether
it holds its item, and the next seq of that slot writes over it. -/
def Accepts (b : ReorderBuffer α) (called : List ℕ) (seq : ℕ) : Prop :=
  seq < maxVal ∧ b.nextExpected ≤ seq ∧
    (seq ∈ called → (b.ownSlot seq).tag = seq + 1 ∨ ((b.ownSlot seq).tag = UNOCCUPIED ∧ ∀ s ∈ b.slots, s.tag ≠ seq + 1))

instance (b : ReorderBuffer α) (called : List ℕ) (seq : ℕ) : Decidable (Accepts b called seq) :=
  inferInstanceAs (Decidable (_ ∧ _ ∧ (_ → _ ∨ (_ ∧ ∀ s ∈ b.slots, _))))

/-- every call of the run `ops` on `b0` is accepted in the state it meets -/
def Accepted (b0 : ReorderBuffer α) (ops : List (ℕ × α)) : Prop :=
  ∀ i < ops.length, ∀ o ∈ ops[i]?, ∀ st ∈ (run b0 (ops.take i)).toOption, Accepts st.1 ((ops.take i).map Prod.fst) o.1

instance (b0 : ReorderBuffer α) (ops : List (ℕ × α)) : Decidable (Accepted b0 ops) :=
  inferInstanceAs (Decidable (∀ i < ops.length, ∀ o ∈ ops[i]?, ∀ st ∈ (run b0 (ops.take i)).toOption,
    Accepts st.1 ((ops.take i).map Prod.fst) o.1))

/-- the output, followed by what `flushRemaining` would hand over now, is strictly increasing in seq: `l` tells which call each
item came from -/
def Single (b : ReorderBuffer α) (out : List α) (ops : List (ℕ × α)) : Prop :=
  ∃ (b' : ReorderBuffer α) (rest : List α) (l : List (ℕ × α)),
    b.flushRemaining = .ok (b', rest) ∧ out ++ rest = l.map Prod.snd ∧ l.Subperm ops ∧ (l.map Prod.fst).Pairwise (· < ·)

/-- a call with `seq` drops nothing of another seq: what the slots hold under other seqs is held after it, or is among the
contiguous run the call emitted -/
def Spares (b b' : ReorderBuffer α) (seq : ℕ) (out : List α) : Prop :=
  ∃ em : List (ℕ × α), em.map Prod.snd = out ∧ em.map Prod.fst = List.range' b.nextExpected em.length ∧
    ∀ s ∈ b.slots, s.tag ≠ UNOCCUPIED → s.tag ≠ seq + 1 → s ∈ b'.slots ∨ ∃ p ∈ em, s = ⟨p.1 + 1, some p.2⟩

/-! ## Whole runs -/

/-- the split of a run's calls, with one pair per held seq, none of it emitted -/
structure Sorted (b : ReorderBuffer α) (out : List α) (ops em h ev : List (ℕ × α)) : Prop extends Split b out ops em h ev where
  nodup : (h.map Prod.fst).Nodup
  ahead : ∀ p ∈ h, b.nextExpected ≤ p.1

theorem Accepted.of_append {b0 : ReorderBuffer α} {ops rest : List (ℕ × α)} (h : Accepted b0 (ops ++ rest)) :
    Accepted b0 ops := by
  intro i hi o ho st hst
  have htake : (ops ++ rest).take i = ops.take i := List.take_append_of_le_length hi.le
  have hacc := h i (by simp; omega) o (by rwa [List.getElem?_append_left hi]) st (by rwa [htake])
  rwa [htake] at hacc

theorem Accepted.last {b0 : ReorderBuffer α} {ops : List (ℕ × α)} {o : ℕ × α} (h : Accepted b0 (ops ++ [o]))
    {st : ReorderBuffer α × List α} (hst : run b0 ops = .ok st) : Accepts st.1 (ops.map Prod.fst) o.1 := by
  have hacc := h ops.length (by simp) o (by simp) st (by simp [hst, Except.toOption])
  rwa [List.take_left] at hacc

namespace Sorted

variable {b : ReorderBuffer α} {out : List α} {ops em h ev : List (ℕ × α)}

/-- an accepted seq that is held is held in its own slot -/
theorem own_of_accepts (hh : Sorted b out ops em h ev) {seq : ℕ} (ha : Accepts b (ops.map Prod.fst) seq) :
    ∀ p ∈ h, p.1 = seq → b.ownSlot seq = entry p := by
  rintro p hp rfl
  have hcalled : p.1 ∈ ops.map Prod.fst :=
    List.mem_map_of_mem (hh.split.mem_iff.2 (List.mem_append_left _ (List.mem_append_right _ hp)))
  rcases ha.2.2 hcalled with htag | ⟨-, hnone⟩
  · -- the slot under the seq's index carries its tag, and no other pair has that tag
    have hocc : (b.ownSlot p.1).tag ≠ UNOCCUPIED := by rw [htag]; exact Nat.succ_ne_zero _
    have hslot : b.slots[p.1 &&& b.mask]? = some (b.ownSlot p.1) := by
      unfold ReorderBuffer.ownSlot at hocc ⊢
      rcases hget : b.slots[p.1 &&& b.mask]? with _ | slot
      · rw [hget] at hocc
        exact absurd rfl hocc
      · rfl
    obtain ⟨q, hq, hqe⟩ := hh.loose.occupied hslot hocc
    have hqp : q.1 = p.1 := by
      rw [hqe] at htag
      exact Nat.succ_injective htag
    rw [hqe, List.inj_on_of_nodup_map hh.nodup hq hp hqp]
  · exact absurd rfl (hnone _ (hh.loose.entry_mem hp))

/-- **One call of a run** keeps the split; an accepted repeat drops only its own seq -/
theorem step (hh : Sorted b out ops em h ev) {o : ℕ × α} (ha : Accepts b (ops.map Prod.fst) o.1)
    (hroom : ops.length + 1 < maxVal) (hno : b.insertInto o.1 o.2 ≠ .error .capacityOverflow) :
    ∃ b' em' h' ev', b.insertInto o.1 o.2 = .ok (b', em'.map Prod.snd) ∧
      Sorted b' (out ++ em'.map Prod.snd) (ops ++ [o]) (em ++ em') h' (ev ++ ev') ∧
      (o.1 ∈ ops.map Prod.fst → Spares b b' o.1 (em'.map Prod.snd)) := by
  have hlen := hh.split.length_eq
  rw [List.length_append, List.length_append] at hlen
  have hnext := hh.next
  obtain ⟨b', em', h', ev', hins, hb', hperm, hfst, hnx, hdrop, hnd, hev, hbare⟩ := hh.loose.insertInto o.2 ha.1
    (hh.own_of_accepts ha) (by omega) hno
  have hnd' := hnd hh.nodup
  rw [List.map_append, List.nodup_append] at hnd'
  refine ⟨b', em', h', ev', hins, ⟨⟨hb', ?_, ?_, ?_, ?_, ?_, fun hnil => ?_⟩, hnd'.2.1, ?_⟩, fun hrep => ⟨em', rfl, hfst, ?_⟩⟩
  · rw [hh.out, List.map_append]
  · rw [List.map_append, hh.order, hfst, List.length_append, hnext]
    simpa using List.range'_append_1 (s := 0) (m := em.length) (n := em'.length)
  · rw [hnx, hnext, List.length_append]
  · exact split_snoc hh.split hperm
  · rw [hdrop, hh.dropped, List.length_append]
  · rw [hh.bare (hbare hnil).1, (hbare hnil).2, List.append_nil]
  · -- a held seq was at or past the cursor and was not emitted
    intro p hp
    have hge : b.nextExpected ≤ p.1 := by
      have hmem := hperm.mem_iff.2 (List.mem_append_left _ (List.mem_append_right _ hp))
      rcases List.mem_cons.1 hmem with rfl | hp
      · exact ha.2.1
      · exact hh.ahead p hp
    have hnot : p.1 ∉ List.range' b.nextExpected em'.length := fun hin =>
      hnd'.2.2 _ (hfst ▸ hin) _ (List.mem_map_of_mem hp) rfl
    rw [List.mem_range'_1] at hnot
    omega
  · intro s hs hocc hother
    obtain ⟨i, hi⟩ := List.getElem?_of_mem hs
    obtain ⟨p, hp, rfl⟩ := hh.loose.occupied hi hocc
    have hpo : p.1 ≠ o.1 := fun heq => hother (by simp [entry, heq])
    have hmem := hperm.mem_iff.1 (List.mem_cons_of_mem _ hp)
    rcases List.mem_append.1 hmem with hmem | hdrop
    · rcases List.mem_append.1 hmem with hem | hheld
      · exact Or.inr ⟨p, hem, rfl⟩
      · exact Or.inl (hb'.entry_mem hheld)
    · have hown := ha.2.2 hrep
      exact absurd (hev (hown.elim Or.inr fun hfree => Or.inl hfree.1) p hdrop) hpo

/-- a repeat that is accepted needs no larger array -/
theorem repeat_ne_overflow (hh : Sorted b out ops em h ev) {o : ℕ × α} (ha : Accepts b (ops.map Prod.fst) o.1)
    (hrep : o.1 ∈ ops.map Prod.fst) : b.insertInto o.1 o.2 ≠ .error .capacityOverflow := by
  have hne : b.slots ≠ [] := by
    intro hnil
    -- without an array every call so far was emitted
    have hheld : h = [] := by
      have hlen := hh.loose.live.length_eq
      rw [hnil, List.length_map] at hlen
      exact List.eq_nil_of_length_eq_zero hlen.symm
    rw [(hh.split.map Prod.fst).mem_iff, hheld, hh.bare hnil, List.append_nil, List.append_nil, hh.order,
      List.mem_range'_1] at hrep
    have hnext := hh.next
    have hcur := ha.2.1
    omega
  obtain ⟨slot, hslot⟩ := hh.loose.slot_exists hne o.1
  have hown := ha.2.2 hrep
  simp only [ReorderBuffer.ownSlot, hslot, Option.getD_some] at hown
  refine insertInto_ne_overflow hne hslot ?_
  rw [wrappingAdd_of_lt (maxVal_lt ha.1)]
  exact hown.symm.imp_left And.left

/-- the output and what is held, in order, come from distinct seqs -/
theorem single (hh : Sorted b out ops em h ev) : Single b out ops := by
  obtain ⟨b', l, hfl, hperm, hpw, -⟩ := flushRemaining_of_live hh.loose.live hh.nodup
  refine ⟨b', l.map Prod.snd, em ++ l, hfl, by rw [hh.out, List.map_append], ?_, ?_⟩
  · have hle : (em ++ h).Subperm (em ++ h ++ ev) := (List.sublist_append_left _ _).subperm
    exact ((hperm.append_left em).subperm.trans hle).trans hh.split.symm.subperm
  · -- emitted seqs are below the cursor, held ones at or past it
    rw [List.map_append, List.pairwise_append]
    refine ⟨by rw [hh.order]; exact List.pairwise_lt_range', hpw, fun s hs t ht => ?_⟩
    rw [hh.order, List.mem_range'_1] at hs
    obtain ⟨q, hq, rfl⟩ := List.mem_map.1 ht
    have hq' := hh.ahead q (hperm.mem_iff.1 hq)
    have hnext := hh.next
    omega

end Sorted

theorem run_sorted {b0 : ReorderBuffer α} (h0 : Sorted b0 [] [] [] [] []) (ops : List (ℕ × α)) (hlen : ops.length < maxVal)
    (hgood : Accepted b0 ops) (hno : run b0 ops ≠ .error .capacityOverflow) :
    ∃ b out em h ev, run b0 ops = .ok (b, out) ∧ Sorted b out ops em h ev := by
  induction ops using List.reverseRecOn with
  | nil => exact ⟨b0, [], [], [], [], rfl, h0⟩
  | append_singleton ops o ih =>
    rw [List.length_append, List.length_singleton] at hlen
    obtain ⟨b, out, em, h, ev, hrun, hh⟩ := ih (by omega) hgood.of_append (run_init hno).1
    obtain ⟨b', em', h', ev', hins, hh', -⟩ := hh.step (hgood.last hrun) hlen fun hpan =>
      (run_init hno).2 _ hrun (step_of_insertInto hpan)
    refine ⟨b', out ++ em'.map Prod.snd, em ++ em', h', ev ++ ev', ?_, hh'⟩
    rw [run_snoc, hrun]
    simp [Except.bind, Reorder.step, hins, bind]

/-! ## Results -/

/-- **One item per seq, over runs of accepted calls.** For every initial and maximal capacity and every run of fewer than
`u64::MAX` accepted calls, in every state of the run the output followed by `flushRemaining` takes at most one item per seq, in
increasing order, and the next call, if its seq came before, drops nothing of another seq. The one other outcome is the panic
of a slot array of more than `isize::MAX` bytes, which takes an initial capacity above 2^63 or a ceiling too large for a
`Vec`. -/
theorem single_per_seq (size : SlotSize) (initial : ℕ) (hi : initial < word) (mx : Option ℕ) (ops : List (ℕ × α))
    (hlen : ops.length < maxVal) (hgood : Accepted (withMaxInner size initial mx) ops) (pre : List (ℕ × α))
    (hpre : pre <+: ops) :
    (∃ b out, run (withMaxInner size initial mx) pre = .ok (b, out) ∧ Single b out pre ∧
      ∀ o, pre ++ [o] <+: ops → o.1 ∈ pre.map Prod.fst →
        ∃ b' out', b.insertInto o.1 o.2 = .ok (b', out') ∧ Spares b b' o.1 out') ∨
      ((2 ^ 63 < initial ∨ isizeMax < (withMaxInner size initial mx : ReorderBuffer α).maxCapacity * size.bytes) ∧
        run (withMaxInner size initial mx : ReorderBuffer α) pre = .error .capacityOverflow) := by
  have hpast : pre.length ≤ ops.length := hpre.length_le
  have hgood' : Accepted (withMaxInner size initial mx) pre := by
    obtain ⟨post, rfl⟩ := hpre
    exact hgood.of_append
  by_cases hbig : 2 ^ 63 < initial
  · rcases run_oversized (withMaxInner size initial mx) ⟨rfl, rfl, rfl, rfl⟩ (withMaxInner_over size hbig hi mx) pre
      (by omega) with herr | ⟨hok, hord⟩
    · exact Or.inr ⟨.inl hbig, herr⟩
    · refine Or.inl ⟨_, _, hok, ⟨_, [], pre, rfl, by simp, List.Subperm.refl pre, ?_⟩, ?_⟩
      · rw [hord]
        exact List.pairwise_lt_range'
      · -- only emitted seqs came before, and the cursor is past them
        rintro o ⟨post, rfl⟩ hrep
        have hacc := (hgood.of_append).last hok
        rw [hord, List.mem_range'_1] at hrep
        have hcur : pre.length ≤ o.1 := hacc.2.1
        omega
  · have hheld : Held (withMaxInner size initial mx : ReorderBuffer α) [] [] [] [] [] :=
      withMaxInner_held size initial (by omega) mx
    have h0 : Sorted (withMaxInner size initial mx : ReorderBuffer α) [] [] [] [] [] :=
      ⟨hheld.toSplit, List.nodup_nil, by simp⟩
    by_cases hpan : run (withMaxInner size initial mx : ReorderBuffer α) pre = .error .capacityOverflow
    · refine Or.inr ⟨.inr (run_over hpan ?_), hpan⟩
      rintro l o r st rfl hst
      rw [List.length_append] at hpast
      obtain ⟨b, out, em, h, ev, hrun, hh⟩ := run_sorted h0 l (by omega) hgood'.of_append (by rw [hst]; simp)
      cases hst.symm.trans hrun
      exact ⟨hh.loose.le, h, hh.loose.core⟩
    · obtain ⟨b, out, em, h, ev, hrun, hh⟩ := run_sorted h0 pre (by omega) hgood' hpan
      refine Or.inl ⟨b, out, hrun, hh.single, ?_⟩
      rintro o ⟨post, rfl⟩ hrep
      rw [List.length_append, List.length_append, List.length_singleton] at hlen
      have hacc := (hgood.of_append).last hrun
      obtain ⟨b', em', h', ev', hins, -, hsp⟩ := hh.step hacc (by omega) (hh.repeat_ne_overflow hacc hrep)
      exact ⟨b', em'.map Prod.snd, hins, hsp hrep⟩

/-- a run that misplaces 11, repeats the held 3, and flushes: each seq comes out once -/
theorem single_per_seq_misplaced :
    ∃ b out, run (withMaxInner wordSlot 2 (some 8)) [(3, 30), (11, 110), (3, 31), (0, 0)] = .ok (b, out) ∧ out = [0] ∧
      Single b out [(3, 30), (11, 110), (3, 31), (0, 0)] := by
  rcases single_per_seq wordSlot 2 (by decide) (some 8) [(3, 30), (11, 110), (3, 31), (0, 0)] (by decide) (by decide) _
    (List.prefix_refl _) with ⟨b, out, hrun, hsingle, -⟩ | ⟨hbig, -⟩
  · refine ⟨b, out, hrun, ?_, hsingle⟩
    have hout : (run (withMaxInner wordSlot 2 (some 8)) [(3, 30), (11, 110), (3, 31), (0, 0)]).toOption.map
        Prod.snd = some [0] := by
      decide
    rw [hrun] at hout
    exact Option.some.inj hout
  · exact absurd hbig (by decide)

/-- **A seq that was already emitted.** With two slots, after 0 and 1 are emitted and 3 is held, a second arrival of 1 takes the
slot of 3: the item of 3 is dropped, and the flush hands over the second item of 1 after the first. -/
theorem stale_repeat :
    ∃ b b' : ReorderBuffer ℕ, run (new wordSlot 2) [(0, 0), (1, 10), (3, 30)] = .ok (b, [0, 10]) ∧
      b.insertInto 1 11 = .ok (b', []) ∧
      (∃ b'', b'.flushRemaining = .ok (b'', [11])) ∧ ¬ Single b' [0, 10] [(0, 0), (1, 10), (3, 30), (1, 11)] ∧
      ¬ Spares b b' 1 [] := by
  refine ⟨_, _, rfl, rfl, ⟨_, rfl⟩, ?_, ?_⟩
  · rintro ⟨b'', rest, l, hfl, hout, hsub, hpw⟩
    have hrest : some [11] = some rest := congrArg (fun r => r.toOption.map Prod.snd) hfl
    rw [← Option.some.inj hrest] at hout
    -- the items of the calls are distinct, so the output tells the seqs
    have hkey : ∀ p ∈ l, p.1 = (if p.2 = 0 then 0 else if p.2 = 30 then 3 else 1) := by
      intro p hp
      have hmem := hsub.subset hp
      fin_cases hmem
      all_goals rfl
    have hfst : l.map Prod.fst = (l.map Prod.snd).map fun x => if x = 0 then 0 else if x = 30 then 3 else 1 := by
      rw [List.map_map]
      exact List.map_congr_left hkey
    rw [hfst, ← hout] at hpw
    exact absurd hpw (by decide)
  · rintro ⟨em, hem, -, hsp⟩
    obtain rfl : em = [] := List.map_eq_nil_iff.1 hem
    rcases hsp ⟨4, some 30⟩ (by decide) (by decide) (by decide) with hheld | ⟨p, hp, -⟩
    · exact absurd hheld (by decide)
    · simp at hp

end YouPipe.Reorder
