/-
The window of the ordered collectors (`state/stream.rs`): how a collector sizes its reorder buffer, and why a buffer whose
arrivals stay within its ceiling drops nothing.

An arrival `s` with `nextExpected ≤ s < nextExpected + W`, where `W` is the buffer's ceiling, cannot share its residue
modulo `W` with a held seq, because held seqs lie in the same window of `W` consecutive numbers. So the growth loop always
finds a free slot, nothing is evicted, and the sink sees 0, 1, 2, … in order.

A doubling is made only for an alias, so while the arrivals stay within a window that a `Vec` can hold, the array does not
outgrow one (`run_fits`).

The argument needs seqs below `u64::MAX`, fewer than `u64::MAX` calls (`flush_past_max`), capacities that a power of two
can round up within a word (`auto_overflow`), and arrays of at most `isize::MAX` bytes.
-/
import Mathlib.Tactic
import YouPipe.State.Reorder

namespace YouPipe.Ordered

open YouPipe.Word YouPipe.SlotTable YouPipe.Reorder

/-! ## Model -/

structure OrderedWindow where
  initial : ℕ
  max : ℕ
deriving DecidableEq, Repr

/-- grow to `next_pow2(n)`, pre-sized to the pipeline's occupancy estimate, at least 1 Ki slots -/
def auto (n inFlight : ℕ) : OrderedWindow :=
  let mx := nextPowerOfTwo (max n 1)
  ⟨min mx (max (2 ^ 10) inFlight), mx⟩

/-- a ceiling pinned by the caller: start at it and never grow -/
def fixed (n window : ℕ) : OrderedWindow :=
  let mx := nextPowerOfTwo (min window (nextPowerOfTwo (max n 1)))
  ⟨mx, mx⟩

/-- `OrderedWindow::open`, the window of `run_ordered_collect`: pre-sized from a hint, and growing without a practical bound -/
def openFor (expected : ℕ) : OrderedWindow := ⟨min (max (nextPowerOfTwo (max expected 1)) (2 ^ 10)) (2 ^ 20), 2 ^ 63⟩

variable {α : Type}

/-- the collector's buffer -/
def OrderedWindow.buffer (w : OrderedWindow) (size : SlotSize) : ReorderBuffer α := withMax size w.initial w.max

/-- every call of the run `ops` on `b0` inserts a seq below `nextExpected + W` -/
def Windowed (W : ℕ) (b0 : ReorderBuffer α) (ops : List (ℕ × α)) : Prop :=
  ∀ i < ops.length, ∀ o ∈ ops[i]?, ∀ st ∈ (run b0 (ops.take i)).toOption, o.1 < st.1.nextExpected + W

instance (W : ℕ) (b0 : ReorderBuffer α) (ops : List (ℕ × α)) : Decidable (Windowed W b0 ops) :=
  inferInstanceAs (Decidable (∀ i < ops.length, ∀ o ∈ ops[i]?, ∀ st ∈ (run b0 (ops.take i)).toOption,
    o.1 < st.1.nextExpected + W))

theorem Windowed.of_append {W : ℕ} {b0 : ReorderBuffer α} {ops rest : List (ℕ × α)} (h : Windowed W b0 (ops ++ rest)) :
    Windowed W b0 ops := by
  intro i hi o ho st hst
  refine h i (by simp; omega) o (by rwa [List.getElem?_append_left hi]) st ?_
  rwa [List.take_append_of_le_length hi.le]

theorem Windowed.last {W : ℕ} {b0 : ReorderBuffer α} {ops : List (ℕ × α)} {o : ℕ × α} (h : Windowed W b0 (ops ++ [o]))
    {st : ReorderBuffer α × List α} (hst : run b0 ops = .ok st) : o.1 < st.1.nextExpected + W :=
  h ops.length (by simp) o (by simp) st (by simp [hst, Except.toOption])

/-! ## Inside the window nothing aliases -/

/-- two numbers of one window of `W` consecutive numbers with the same residue are equal -/
theorem eq_of_window {a b n W : ℕ} (ha : n ≤ a) (ha' : a < n + W) (hb : n ≤ b) (hb' : b < n + W)
    (h : a % W = b % W) : a = b := by
  have hmod : a ≡ b [MOD W] := h
  rcases le_total a b with hab | hab
  · have hd := (Nat.modEq_iff_dvd' hab).1 hmod
    have := Nat.eq_zero_of_dvd_of_lt hd (by omega)
    omega
  · have hd := (Nat.modEq_iff_dvd' hab).1 hmod.symm
    have := Nat.eq_zero_of_dvd_of_lt hd (by omega)
    omega

/-- every held seq is within `V` of the cursor -/
def InWindow (V : ℕ) (b : ReorderBuffer α) (h : List (ℕ × α)) : Prop := ∀ p ∈ h, p.1 < b.nextExpected + V

variable {V : ℕ} {b : ReorderBuffer α} {out : List α} {ops em h ev : List (ℕ × α)}

theorem not_alias (hh : Held b out ops em h ev) (hw : InWindow V b h) (hV : V ≤ b.maxCapacity) {seq : ℕ}
    (hge : b.nextExpected ≤ seq) (hlt : seq < b.nextExpected + V) (hnew : seq ∉ ops.map Prod.fst) {p : ℕ × α} (hp : p ∈ h) :
    p.1 % b.maxCapacity ≠ seq % b.maxCapacity := by
  intro hres
  have hpw := hw p hp
  have heq := eq_of_window (hh.ahead p hp).le (by omega) hge (by omega) hres
  refine hnew (heq ▸ List.mem_map_of_mem (hh.split.mem_iff.2 ?_))
  exact List.mem_append_left _ (List.mem_append_right _ hp)

/-- an arrival inside the window is never misplaced -/
theorem not_misplaces (hh : Held b out ops em h ev) (hw : InWindow V b h) (hV : V ≤ b.maxCapacity) {seq : ℕ}
    (hge : b.nextExpected ≤ seq) (hlt : seq < b.nextExpected + V) (hnew : seq ∉ ops.map Prod.fst) : ¬ Misplaces b seq := by
  rintro ⟨-, -, slot, hslot, hocc, -, hres⟩
  obtain ⟨i, hi⟩ := List.getElem?_of_mem hslot
  obtain ⟨p, hp, rfl, -⟩ := hh.core.occupied hi hocc
  obtain ⟨j, -, hj⟩ := hh.core.maxPow
  have hmask : b.maxCapacity - 1 + 1 = 2 ^ j := by rw [← hj]; have := hh.core.le; omega
  have hp1 := maxVal_lt (hh.core.small p hp)
  rw [Word.and_mask hmask, Word.and_mask hmask, hmask, ← hj, show (entry p).tag = p.1 + 1 from rfl,
    wrappingSub_succ (by omega)] at hres
  exact not_alias hh hw hV hge hlt hnew hp hres

/-- **One call inside the window** drops nothing and stays inside it -/
theorem step_window (hh : Held b out ops em h []) (hw : InWindow V b h) (hV : V ≤ b.maxCapacity) (seq : ℕ) (item : α)
    (hs : seq < maxVal) (hnew : seq ∉ ops.map Prod.fst) (hroom : ops.length + 1 < maxVal) (hlt : seq < b.nextExpected + V)
    (hno : Reorder.step (b, out) (seq, item) ≠ .error .capacityOverflow) :
    ∃ b' out' em' h', Reorder.step (b, out) (seq, item) = .ok (b', out ++ out') ∧
      Held b' (out ++ out') (ops ++ [(seq, item)]) (em ++ em') h' [] ∧ InWindow V b' h' ∧
      b'.maxCapacity = b.maxCapacity := by
  have hge : b.nextExpected ≤ seq := by
    by_contra hbelow
    exact hnew (hh.mem_of_lt (by omega))
  obtain ⟨b', out', em', h', ev', hstep, hh', hcap, hev⟩ :=
    hh.step seq item hs hnew hroom (not_misplaces hh hw hV hge hlt hnew) hno
  have hnil : ev' = [] := by
    refine List.eq_nil_iff_forall_not_mem.2 fun e he => ?_
    exact not_alias hh hw hV hge hlt hnew (hev e he).1 (hev e he).2
  subst hnil
  refine ⟨b', out', em', h', hstep, by simpa using hh', fun p hp => ?_, hcap⟩
  have hn := hh.next
  have hn' := hh'.next
  rw [List.length_append] at hn'
  -- a pair held now is the arrival or was held before
  have hp' : p ∈ ops ++ [(seq, item)] := hh'.split.mem_iff.2 (by simp [hp])
  have hah := hh'.ahead p hp
  rcases List.mem_append.1 hp' with hp' | hp'
  · rcases List.mem_append.1 (hh.split.mem_iff.1 hp') with hp' | hp'
    · rcases List.mem_append.1 hp' with hp' | hp'
      · have := List.mem_map_of_mem (f := Prod.fst) hp'
        rw [hh.order, List.mem_range'_1] at this
        omega
      · have := hw p hp'
        omega
    · simp at hp'
  · simp only [List.mem_singleton] at hp'
    subst hp'
    omega

/-- **A run inside the window** drops nothing -/
theorem run_window {b0 : ReorderBuffer α} (h0 : Held b0 [] [] [] [] []) (hV : V ≤ b0.maxCapacity) (ops : List (ℕ × α))
    (hnd : (ops.map Prod.fst).Nodup) (hsmall : ∀ o ∈ ops, o.1 < maxVal) (hlen : ops.length < maxVal)
    (hwin : Windowed V b0 ops) (hno : run b0 ops ≠ .error .capacityOverflow) :
    ∃ b out em h, run b0 ops = .ok (b, out) ∧ Held b out ops em h [] ∧ InWindow V b h ∧
      b.maxCapacity = b0.maxCapacity := by
  induction ops using List.reverseRecOn with
  | nil => exact ⟨b0, [], [], [], rfl, h0, by simp [InWindow], rfl⟩
  | append_singleton ops o ih =>
    rw [List.map_append, List.nodup_append] at hnd
    rw [List.length_append] at hlen
    obtain ⟨b, out, em, h, hrun, hh, hw, hcap⟩ := ih hnd.1 (fun o ho => hsmall o (List.mem_append_left _ ho))
      (by simp at hlen; omega) hwin.of_append (run_init hno).1
    obtain ⟨b', out', em', h', hstep, hh', hw', hcap'⟩ := step_window hh hw (hcap ▸ hV) o.1 o.2
      (hsmall o (List.mem_append_right _ List.mem_cons_self))
      (fun hin => hnd.2.2 o.1 hin o.1 (by simp) rfl) (by simpa using hlen) (hwin.last hrun) ((run_init hno).2 _ hrun)
    exact ⟨b', out ++ out', em ++ em', h', by rw [run_snoc, hrun]; exact hstep, hh', hw', hcap'.trans hcap⟩

/-- **A window that a `Vec` can hold** is never outgrown: two seqs of it that share a slot are told apart by its capacity -/
theorem run_fits {b0 : ReorderBuffer α} {k : ℕ} (h0 : Held b0 [] [] [] [] []) (hk : 2 ^ k ≤ b0.maxCapacity)
    (hinit : b0.mask + 1 ≤ 2 ^ k) (hfit : 2 ^ k * b0.slotBytes ≤ isizeMax) (hnd : (ops.map Prod.fst).Nodup)
    (hsmall : ∀ o ∈ ops, o.1 < maxVal) (hlen : ops.length < maxVal) (hwin : Windowed (2 ^ k) b0 ops) :
    run b0 ops ≠ .error .capacityOverflow := by
  intro hpan
  obtain ⟨pre, o, post, st, rfl, hst, hins⟩ := run_panics hpan
  rw [List.append_cons] at hwin
  rw [List.map_append, List.nodup_append] at hnd
  rw [List.length_append, List.length_cons] at hlen
  obtain ⟨b, out, em, h, hrun, hh, hw, hcap⟩ := run_window h0 hk pre hnd.1 (fun o ho => hsmall o (List.mem_append_left _ ho))
    (by omega) hwin.of_append.of_append (by rw [hst]; simp)
  cases hst.symm.trans hrun
  have hlim := run_limits hrun
  obtain hfirst | ⟨i, -, hover, p, hp, hmod⟩ := insertInto_panics (fun _ => hh.core) hins
  · exact absurd (hlim.fits ((Nat.mul_le_mul_right _ hinit).trans hfit)) (Nat.not_le_of_lt hfirst)
  · have hki : k ≤ i := by
      have hlt : 2 ^ k < 2 ^ (i + 1) := by
        rw [pow_succ]
        rw [hlim.bytes] at hover
        exact Nat.lt_of_mul_lt_mul_right (hfit.trans_lt hover)
      exact Nat.lt_succ_iff.1 ((Nat.pow_lt_pow_iff_right (by norm_num)).1 hlt)
    have hge : b.nextExpected ≤ o.1 := by
      by_contra hbelow
      exact hnd.2.2 o.1 (hh.mem_of_lt (by omega)) o.1 (by simp) rfl
    have hres : p.1 % 2 ^ k = o.1 % 2 ^ k := (show p.1 ≡ o.1 [MOD 2 ^ i] from hmod).of_dvd (pow_dvd_pow 2 hki)
    have heq := eq_of_window (hh.ahead p hp).le (hw p hp) hge (hwin.of_append.last hrun) hres
    have hmem : p ∈ pre := hh.split.mem_iff.2 (List.mem_append_left _ (List.mem_append_right _ hp))
    exact hnd.2.2 p.1 (List.mem_map_of_mem hmem) o.1 (by simp) heq

/-- no power of two that covers the initial capacity and that a `Vec` can hold has all arrivals of the run in its window -/
def Outgrown (size : SlotSize) (initial : ℕ) (b0 : ReorderBuffer α) (ops : List (ℕ × α)) : Prop :=
  ∀ k, initial ≤ 2 ^ k → 2 ^ k * size.bytes ≤ isizeMax → ¬ Windowed (2 ^ k) b0 ops

/-- **Inside the window of its ceiling a buffer panics only when the run outgrows what a `Vec` can hold** -/
theorem outgrown_of_window {size : SlotSize} {initial : ℕ} {mx : Option ℕ} (hi : initial ≤ 2 ^ 63)
    (hnd : (ops.map Prod.fst).Nodup) (hsmall : ∀ o ∈ ops, o.1 < maxVal) (hlen : ops.length < maxVal)
    (hwin : Windowed (withMaxInner size initial mx : ReorderBuffer α).maxCapacity (withMaxInner size initial mx) ops)
    (hpan : run (withMaxInner size initial mx) ops = .error .capacityOverflow) :
    Outgrown size initial (withMaxInner size initial mx) ops := by
  intro k hk hfit hwin'
  have h0 : Held (withMaxInner size initial mx : ReorderBuffer α) [] [] [] [] [] := withMaxInner_held size initial hi mx
  have hinit : (withMaxInner size initial mx : ReorderBuffer α).mask + 1 ≤ 2 ^ k := by
    rw [withMaxInner_mask size hi mx, nextPowerOfTwo_eq_clog (by omega)]
    exact Nat.pow_le_pow_right Nat.two_pos (Nat.clog_le_of_le_pow (max_le hk Nat.one_le_two_pow))
  rcases Nat.le_total (2 ^ k) (withMaxInner size initial mx : ReorderBuffer α).maxCapacity with hle | hge
  · exact run_fits h0 hle hinit hfit hnd hsmall hlen hwin' hpan
  · -- the ceiling itself fits
    obtain ⟨j, -, hj⟩ := h0.core.maxPow
    rw [hj] at hwin hge
    refine run_fits h0 hj.ge ?_ ((Nat.mul_le_mul_right _ hge).trans hfit) hnd hsmall hlen hwin hpan
    exact h0.core.le.trans hj.le

/-! ## What the sink has received -/

/-- the buffer after a run: nothing dropped, the capacity within `W`, and the sink has the items of the seqs below
`nextExpected`, in order, where `nextExpected` is the least seq not yet inserted -/
structure Sequenced (W : ℕ) (b : ReorderBuffer α) (out : List α) (ops : List (ℕ × α)) : Prop where
  dropped : b.dropped = 0
  capacity : b.capacity ≤ W
  emitted : ∃ em, em ⊆ ops ∧ em.map Prod.fst = List.range b.nextExpected ∧ out = em.map Prod.snd
  inserted : ∀ s < b.nextExpected, s ∈ ops.map Prod.fst
  least : b.nextExpected ∉ ops.map Prod.fst

theorem sequenced_of_held (hh : Held b out ops em h []) : Sequenced b.maxCapacity b out ops := by
  refine ⟨hh.dropped, (Nat.mod_le _ _).trans hh.core.le, ⟨em, fun p hp => ?_, ?_, hh.out⟩, fun s hs => hh.mem_of_lt hs,
    fun hin => ?_⟩
  · exact hh.split.mem_iff.2 (List.mem_append_left _ (List.mem_append_left _ hp))
  · rw [hh.order, hh.next, List.range_eq_range']
  · obtain ⟨p, hp, hpn⟩ := List.mem_map.1 hin
    rcases List.mem_append.1 (hh.split.mem_iff.1 hp) with hp | hp
    · rcases List.mem_append.1 hp with hp | hp
      · have hlt := List.mem_map_of_mem (f := Prod.fst) hp
        rw [hh.order, List.mem_range'_1] at hlt
        have := hh.next
        omega
      · have := hh.ahead p hp
        omega
    · simp at hp

/-- a run on the fast path alone -/
theorem sequenced_oversized {b0 : ReorderBuffer α} {W : ℕ} (hb0 : b0.dropped = 0 ∧ b0.mask = maxVal)
    (hord : ops.map Prod.fst = List.range' 0 ops.length) :
    Sequenced W { b0 with nextExpected := ops.length } (ops.map Prod.snd) ops := by
  refine ⟨hb0.1, ?_, ⟨ops, List.Subset.refl _, by rw [hord, List.range_eq_range'], rfl⟩, fun s hs => ?_, fun hin => ?_⟩
  · have hzero : wrappingAdd maxVal 1 = 0 := by decide
    simp only [ReorderBuffer.capacity, hb0.2, hzero, Nat.zero_le]
  · rw [hord, List.mem_range'_1]
    exact ⟨Nat.zero_le s, by simpa using hs⟩
  · rw [hord, List.mem_range'_1] at hin
    exact absurd hin.2 (by simp)

/-- when the inserted seqs are exactly `0..n-1`, everything has been emitted -/
theorem complete_of_held {n : ℕ} (hh : Held b out ops em h []) (hperm : (ops.map Prod.fst).Perm (List.range n)) :
    b.len = 0 ∧ em.Perm ops ∧ em.map Prod.fst = List.range n := by
  have hsq := sequenced_of_held hh
  have hmem : ∀ s, s ∈ ops.map Prod.fst ↔ s < n := fun s => by rw [hperm.mem_iff, List.mem_range]
  have hnext : b.nextExpected = n := by
    have h1 := mt (hmem b.nextExpected).2 hsq.least
    by_contra hne
    exact absurd ((hmem n).1 (hsq.inserted n (by omega))) (lt_irrefl n)
  have hnil : h = [] := by
    refine List.eq_nil_iff_forall_not_mem.2 fun p hp => ?_
    have h1 := hh.ahead p hp
    have h2 := (hmem p.1).1 (List.mem_map_of_mem (hh.split.mem_iff.2 (by simp [hp])))
    omega
  subst hnil
  refine ⟨by rw [hh.core.len]; rfl, by simpa using hh.split.symm, ?_⟩
  rw [hh.order, ← hh.next, hnext, List.range_eq_range']

/-- `auto` keeps the initial size at or below the ceiling, and the ceiling covers `n` -/
theorem auto_spec (size : SlotSize) {n : ℕ} (hn : n ≤ 2 ^ 63) (inFlight : ℕ) :
    (auto n inFlight).initial ≤ 2 ^ 63 ∧ n ≤ ((auto n inFlight).buffer size : ReorderBuffer α).maxCapacity := by
  obtain ⟨k, hk63, hk, hle⟩ := nextPowerOfTwo_spec (n := max n 1) (by omega)
  have hpow : 2 ^ k ≤ 2 ^ 63 := Nat.pow_le_pow_right (by norm_num) hk63
  have hmax : (auto n inFlight).max = 2 ^ k := hk
  refine ⟨?_, ?_⟩
  · show min (nextPowerOfTwo (max n 1)) _ ≤ _
    rw [hk]; exact (min_le_left _ _).trans hpow
  · show n ≤ max (nextPowerOfTwo (max (auto n inFlight).max 1)) _
    rw [hmax, max_eq_left Nat.one_le_two_pow, nextPowerOfTwo_pow hk63]
    omega

/-- the seqs of a permutation of `0..n-1` never leave a window of at least `n` -/
theorem windowed_of_perm {n : ℕ} {b0 : ReorderBuffer α} (hperm : (ops.map Prod.fst).Perm (List.range n))
    (hn : n ≤ b0.maxCapacity) : Windowed b0.maxCapacity b0 ops := by
  intro i _ o ho st _
  have hmem : o.1 ∈ ops.map Prod.fst := List.mem_map_of_mem (List.mem_of_getElem? ho)
  rw [hperm.mem_iff, List.mem_range] at hmem
  omega

/-- a permutation of `0..n-1` under the automatic window: the array needs `next_pow2(n)` slots at most -/
theorem run_auto (size : SlotSize) {n : ℕ} (hn : n ≤ 2 ^ 63) (inFlight : ℕ) (hperm : (ops.map Prod.fst).Perm (List.range n)) :
    (∃ b out em h, run ((auto n inFlight).buffer size) ops = .ok (b, out) ∧ Held b out ops em h []) ∨
      (isizeMax < nextPowerOfTwo (max n 1) * size.bytes ∧
        run ((auto n inFlight).buffer size) ops = .error .capacityOverflow) := by
  obtain ⟨hi, hmax⟩ := auto_spec (α := α) size hn inFlight
  have hlen : ops.length = n := by simpa using hperm.length_eq
  have hbig : n < maxVal := lt_of_le_of_lt hn (by decide)
  have hnd : (ops.map Prod.fst).Nodup := hperm.nodup_iff.2 List.nodup_range
  have hsmall : ∀ o ∈ ops, o.1 < maxVal := fun o ho => by
    have hmem := hperm.mem_iff.1 (List.mem_map_of_mem (f := Prod.fst) ho)
    rw [List.mem_range] at hmem
    omega
  have hwin := windowed_of_perm hperm hmax
  by_cases hpan : run ((auto n inFlight).buffer size) ops = .error .capacityOverflow
  · refine .inr ⟨Nat.lt_of_not_le fun hfit => ?_, hpan⟩
    obtain ⟨k, -, hk, hnk⟩ := nextPowerOfTwo_spec (n := max n 1) (by omega)
    rw [hk] at hfit
    have hik : (auto n inFlight).initial ≤ 2 ^ k := (min_le_left _ _).trans hk.le
    refine outgrown_of_window hi hnd hsmall (by omega) hwin hpan k hik hfit fun i _ o ho st _ => ?_
    have hmem := hperm.mem_iff.1 (List.mem_map_of_mem (f := Prod.fst) (List.mem_of_getElem? ho))
    rw [List.mem_range] at hmem
    omega
  · obtain ⟨b, out, em, h, hrun, hh, -, -⟩ := run_window (withMaxInner_held size _ hi (some (auto n inFlight).max)) le_rfl ops
      hnd hsmall (by omega) hwin hpan
    exact .inl ⟨b, out, em, h, hrun, hh⟩

/-! ## Results -/

/-- **Drop-free re-sequencing.** A buffer `with_max(initial, max)` with ceiling `W`, and any run of fewer than `u64::MAX` calls
with distinct seqs below `u64::MAX`, each below `nextExpected + W` when it is inserted: after every call nothing has been
dropped, the capacity is within `W` and the sink has exactly the items below `nextExpected`, the least seq not inserted. The one
other outcome is the panic of a slot array of more than `isize::MAX` bytes, when the run is `Outgrown`. For `auto(n, inFlight)`
with `n ≤ 2^63` and the seqs of any permutation of `0..n-1` the sink ends with the `n` items in input order, and the buffer ends
empty, or it panics and `next_pow2(n)` slots are more than a `Vec` can hold. -/
theorem window_drop_free :
    (∀ (size : SlotSize) (initial mx : ℕ) (ops pre : List (ℕ × α)), initial < word → (ops.map Prod.fst).Nodup →
      (∀ o ∈ ops, o.1 < maxVal) → ops.length < maxVal →
      Windowed (max (nextPowerOfTwo (max mx 1)) (nextPowerOfTwo (max initial 1))) (withMax size initial mx) ops → pre <+: ops →
      (∃ b out, run (withMax size initial mx) pre = .ok (b, out) ∧
        Sequenced (max (nextPowerOfTwo (max mx 1)) (nextPowerOfTwo (max initial 1))) b out pre) ∨
      (run (withMax size initial mx) pre = .error .capacityOverflow ∧
        Outgrown size initial (withMax size initial mx) pre)) ∧
    ∀ (size : SlotSize) (n inFlight : ℕ) (ops : List (ℕ × α)), n ≤ 2 ^ 63 → (ops.map Prod.fst).Perm (List.range n) →
      (∃ (b : ReorderBuffer α) (em : List (ℕ × α)), run ((auto n inFlight).buffer size) ops = .ok (b, em.map Prod.snd) ∧
        b.len = 0 ∧ b.dropped = 0 ∧ em.Perm ops ∧ em.map Prod.fst = List.range n) ∨
      (run ((auto n inFlight).buffer size) ops = .error .capacityOverflow ∧
        isizeMax < nextPowerOfTwo (max n 1) * size.bytes) := by
  refine ⟨fun size initial mx ops pre hi hnd hsmall hlen hwin hpre => ?_, fun size n inFlight ops hn hperm => ?_⟩
  · obtain ⟨post, rfl⟩ := hpre
    rw [List.map_append, List.nodup_append] at hnd
    rw [List.length_append] at hlen
    have hsmall' : ∀ o ∈ pre, o.1 < maxVal := fun o ho => hsmall o (List.mem_append_left _ ho)
    by_cases hbig : 2 ^ 63 < initial
    · rcases run_oversized (withMax size initial mx) ⟨rfl, rfl, rfl, rfl⟩ (withMaxInner_over size hbig hi (some mx)) pre
        (by omega) with herr | ⟨hok, hord⟩
      · refine .inr ⟨herr, fun k hk hfit _ => ?_⟩
        have hlt : 2 ^ 63 * 8 ≤ 2 ^ k * size.bytes := Nat.mul_le_mul (hbig.le.trans hk) size.tag_le
        exact absurd (hlt.trans hfit) (by decide)
      · exact .inl ⟨_, _, hok, sequenced_oversized ⟨rfl, withMaxInner_oversized size hbig hi (some mx)⟩ hord⟩
    · by_cases hpan : run (withMax size initial mx) pre = .error .capacityOverflow
      · exact .inr ⟨hpan, outgrown_of_window (by omega) hnd.1 hsmall' (by omega) hwin.of_append hpan⟩
      · obtain ⟨b, out, em, h, hrun, hh, -, hcap⟩ := run_window (withMaxInner_held size _ (by omega) (some mx)) le_rfl pre
          hnd.1 hsmall' (by omega) hwin.of_append hpan
        refine .inl ⟨b, out, hrun, ?_⟩
        have hsq := sequenced_of_held hh
        rwa [hcap] at hsq
  · rcases run_auto size hn inFlight hperm with ⟨b, out, em, h, hrun, hh⟩ | ⟨hover, hpan⟩
    · obtain ⟨hl, hpe, hfst⟩ := complete_of_held hh hperm
      exact .inl ⟨b, em, by rw [← hh.out]; exact hrun, hl, hh.dropped, hpe, hfst⟩
    · exact .inr ⟨hpan, hover⟩

/-- a growing buffer fed 2, 1, 0, and `auto(3, 0)` fed the same -/
theorem window_drop_free_reversed :
    (∃ b out, run (withMax wordSlot 1 4) [(2, 20), (1, 10), (0, 0)] = .ok (b, out) ∧
      Sequenced (max (nextPowerOfTwo (max 4 1)) (nextPowerOfTwo (max 1 1))) b out [(2, 20), (1, 10), (0, 0)]) ∧
    ∃ (b : ReorderBuffer ℕ) (em : List (ℕ × ℕ)),
      run ((auto 3 0).buffer wordSlot) [(2, 20), (1, 10), (0, 0)] = .ok (b, em.map Prod.snd) ∧
      b.len = 0 ∧ b.dropped = 0 ∧ em.Perm [(2, 20), (1, 10), (0, 0)] ∧ em.map Prod.fst = List.range 3 := by
  constructor
  · rcases window_drop_free.1 wordSlot 1 4 [(2, 20), (1, 10), (0, 0)] _ (by decide) (by decide) (by decide) (by decide)
      (by decide) (List.prefix_refl _) with h | ⟨-, hout⟩
    · exact h
    · -- four slots are enough, and a `Vec` can hold them
      exact absurd (by decide) (hout 2 (by decide) (by decide))
  · rcases window_drop_free.2 wordSlot 3 0 [(2, 20), (1, 10), (0, 0)] (by norm_num) (by decide) with h | ⟨-, hover⟩
    · exact h
    · exact absurd hover (by decide)

/-! ## Where the words run out -/

theorem windowed_snoc {W : ℕ} {b0 : ReorderBuffer α} {o : ℕ × α} (h : Windowed W b0 ops)
    (ho : ∀ st, run b0 ops = .ok st → o.1 < st.1.nextExpected + W) : Windowed W b0 (ops ++ [o]) := by
  intro i hi o' ho' st hst
  rcases Nat.lt_or_ge i ops.length with hlt | hge
  · rw [List.getElem?_append_left hlt] at ho'
    rw [List.take_append_of_le_length hlt.le] at hst
    exact h i hlt o' ho' st hst
  · have hi' : i = ops.length := by simp at hi; omega
    subst hi'
    simp only [List.getElem?_concat_length, Option.mem_some_iff] at ho'
    subst ho'
    rw [List.take_left'] at hst
    · refine ho st ?_
      cases hrun : run b0 ops with
      | error e => simp [hrun, Except.toOption] at hst
      | ok st' => simpa [hrun, Except.toOption] using hst
    · rfl

theorem map_fst_unit (l : List ℕ) : (l.map fun s => (s, ())).map Prod.fst = l := by
  rw [List.map_map]
  exact List.map_id'' (fun _ => rfl) l

/-- the seqs `0..n-1` in order -/
def inOrder (n : ℕ) : List (ℕ × Unit) := (List.range n).map fun s => (s, ())

theorem run_inOrder {b0 : ReorderBuffer Unit} (h0 : b0.len = 0 ∧ b0.nextExpected = 0) {n : ℕ} (hn : n ≤ maxVal) :
    ∃ out, run b0 (inOrder n) = .ok ({ b0 with nextExpected := n }, out) := by
  induction n with
  | zero =>
    obtain ⟨slots, next, len, mask, cap, dropped, bytes⟩ := b0
    obtain ⟨rfl, rfl⟩ := h0
    exact ⟨[], rfl⟩
  | succ n ih =>
    obtain ⟨out, hout⟩ := ih (by omega)
    refine ⟨out ++ [()], ?_⟩
    rw [inOrder, List.range_succ, List.map_append, List.map_singleton, run_snoc, ← inOrder, hout]
    simp [Except.bind, Reorder.step, ReorderBuffer.insertInto, h0.1, bind, wrappingAdd_of_lt (maxVal_lt (s := n) (by omega))]

theorem windowed_inOrder {b0 : ReorderBuffer Unit} (h0 : b0.len = 0 ∧ b0.nextExpected = 0) {n : ℕ} (hn : n ≤ maxVal) :
    Windowed 2 b0 (inOrder n) := by
  induction n with
  | zero => intro i hi; simp [inOrder] at hi
  | succ n ih =>
    rw [inOrder, List.range_succ, List.map_append, List.map_singleton, ← inOrder]
    refine windowed_snoc (ih (by omega)) fun st hst => ?_
    obtain ⟨out, hout⟩ := run_inOrder h0 (n := n) (by omega)
    rw [hout] at hst
    cases hst
    show n < n + 2
    omega

/-- every seq below `u64::MAX`, in order but for the last two -/
def lastSwapped : List (ℕ × Unit) := inOrder (maxVal - 2) ++ [(maxVal - 1, ())] ++ [(maxVal - 2, ())]

/-- the buffer before, and after, the call with seq `u64::MAX - 1` -/
def beforeLast : ReorderBuffer Unit := { withMax unitSlot 2 2 with nextExpected := maxVal - 2 }

def afterLast : ReorderBuffer Unit := { beforeLast with slots := [⟨maxVal, some ()⟩, emptySlot], len := 1 }

theorem insert_last : beforeLast.insertInto (maxVal - 1) () = .ok (afterLast, []) := by decide

theorem insert_past : afterLast.insertInto (maxVal - 2) () = .error .uninitRead := by decide

/-- a drop is never undone: with a ceiling of one slot, every continuation of the run keeps the dropped pairs -/
theorem dropped_persists {b0 : ReorderBuffer α} {pre : List (ℕ × α)}
    (hrun : run b0 pre = .ok (b, out)) (hh : Held b out pre em h ev) (hcap : b.maxCapacity = 1)
    (hfit : b.slotBytes ≤ isizeMax) (post : List (ℕ × α))
    (hnd : ((pre ++ post).map Prod.fst).Nodup) (hsmall : ∀ o ∈ post, o.1 < maxVal)
    (hlen : (pre ++ post).length < maxVal) :
    ∃ b' out' em' h' ev', run b0 (pre ++ post) = .ok (b', out') ∧ Held b' out' (pre ++ post) em' h' (ev ++ ev') ∧
      b'.maxCapacity = 1 ∧ b'.slotBytes ≤ isizeMax := by
  induction post using List.reverseRecOn with
  | nil => exact ⟨b, out, em, h, [], by simpa using hrun, by simpa using hh, hcap, hfit⟩
  | append_singleton post o ih =>
    rw [← List.append_assoc] at hnd hlen ⊢
    rw [List.map_append, List.nodup_append] at hnd
    rw [List.length_append, List.length_singleton] at hlen
    obtain ⟨b', out', em', h', ev', hrun', hh', hcap', hfit'⟩ := ih hnd.1
      (fun o ho => hsmall o (List.mem_append_left _ ho)) (by omega)
    have hno : Reorder.step (b', out') o ≠ .error .capacityOverflow := by
      intro hpan
      obtain hpan | ⟨r, -, hr⟩ := error_of_bind hpan
      · have hover := (insertInto_panics (fun _ => hh'.core) hpan).over hh'.core.le
        rw [hcap', Nat.one_mul] at hover
        exact absurd hfit' (Nat.not_le_of_lt hover)
      · cases hr
    obtain ⟨b2, out2, em2, h2, ev2, hstep, hh2, hcap2, -⟩ := hh'.step o.1 o.2
      (hsmall o (List.mem_append_right _ List.mem_cons_self)) (fun hin => hnd.2.2 o.1 hin o.1 (by simp) rfl) (by omega)
      (fun hm => by have := hm.1; omega) hno
    have hrun2 : run b0 (pre ++ post ++ [o]) = .ok (b2, out' ++ out2) := by rw [run_snoc, hrun']; exact hstep
    refine ⟨b2, out' ++ out2, em' ++ em2, h2, ev' ++ ev2, hrun2, ?_, hcap2.trans hcap', ?_⟩
    · rw [← List.append_assoc]; exact hh2
    · rw [(run_limits hrun2).bytes, ← (run_limits hrun').bytes]
      exact hfit'

/-- the seqs `0..2^63`, in order but for the first two -/
def firstSwapped : List (ℕ × Unit) := [(1, ()), (0, ())] ++ (List.range' 2 (2 ^ 63 - 1)).map fun s => (s, ())

theorem firstSwapped_seqs : (firstSwapped.map Prod.fst).Perm (List.range (2 ^ 63 + 1)) := by
  have hfst : firstSwapped.map Prod.fst = [1, 0] ++ List.range' 2 (2 ^ 63 - 1) := by
    rw [firstSwapped, List.map_append, map_fst_unit]; rfl
  have hrange : List.range (2 ^ 63 + 1) = [0, 1] ++ List.range' 2 (2 ^ 63 - 1) := by
    rw [List.range_eq_range', show 2 ^ 63 + 1 = 2 + (2 ^ 63 - 1) by norm_num, ← List.range'_append_1]
    rfl
  rw [hfst, hrange]
  exact (List.Perm.swap 0 1 []).append_right _

/-- above 2^63 items the ceiling of `auto` rounds to one slot, and an out-of-order pair costs an item -/
theorem auto_overflow : ∃ (b : ReorderBuffer Unit) (out : List Unit),
    run ((auto (2 ^ 63 + 1) 0).buffer unitSlot) firstSwapped = .ok (b, out) ∧ 0 < b.dropped := by
  have hbuf : ((auto (2 ^ 63 + 1) 0).buffer unitSlot : ReorderBuffer Unit) = withMaxInner unitSlot 0 (some 0) := by decide
  have hrun0 : run (withMaxInner unitSlot 0 (some 0)) [(1, ()), (0, ())] = .ok (⟨[emptySlot], 1, 0, 0, 1, 1, 8⟩, [()]) := by
    decide
  have hnd := firstSwapped_seqs.nodup_iff.2 List.nodup_range
  have hsmall : ∀ o ∈ firstSwapped, o.1 < maxVal := fun o ho => by
    have hmem := firstSwapped_seqs.mem_iff.1 (List.mem_map_of_mem (f := Prod.fst) ho)
    rw [List.mem_range] at hmem
    exact hmem.trans (by decide)
  obtain ⟨b, out, em, h, ev, hrun, hh, hcap⟩ := run_held (withMaxInner_held (α := Unit) unitSlot 0 (by norm_num) (some 0))
    [(1, ()), (0, ())] (by decide) (by decide) (by decide) (by decide) (by rw [hrun0]; simp)
  cases hrun0.symm.trans hrun
  obtain ⟨b', out', em', h', ev', hrun', hh', -⟩ := dropped_persists hrun hh (hcap.trans (by decide)) (by decide) _ hnd
    (fun o ho => hsmall o (List.mem_append_right _ ho)) (by
      have := firstSwapped_seqs.length_eq
      rw [List.length_map, List.length_range] at this
      exact lt_of_eq_of_lt this (by decide))
  refine ⟨b', out', by rw [hbuf]; exact hrun', ?_⟩
  have h1 : 1 = ev.length := hh.dropped
  rw [hh'.dropped, List.length_append]
  omega

theorem lastSwapped_seqs : (lastSwapped.map Prod.fst).Nodup ∧ ∀ o ∈ lastSwapped, o.1 < maxVal := by
  have hfst : lastSwapped.map Prod.fst = List.range (maxVal - 2) ++ [maxVal - 1] ++ [maxVal - 2] := by
    rw [lastSwapped, inOrder, List.map_append, List.map_append, map_fst_unit]; rfl
  refine ⟨?_, fun o ho => ?_⟩
  · rw [hfst, List.append_assoc, List.nodup_append]
    refine ⟨List.nodup_range, by decide, fun a ha c hc hac => ?_⟩
    rw [List.mem_range] at ha
    have h2 : 2 < maxVal := by decide
    rcases List.mem_cons.1 hc with rfl | hc
    · omega
    · have := List.mem_singleton.1 hc
      omega
  · have hmem := List.mem_map_of_mem (f := Prod.fst) ho
    rw [hfst] at hmem
    simp only [List.mem_append, List.mem_range, List.mem_singleton] at hmem
    have h2 : 2 < maxVal := by decide
    omega

/-- the flush loop passes `u64::MAX - 1` and compares the next tag with `u64::MAX.wrapping_add(1) = 0`, which every empty
slot carries -/
theorem flush_past_max : Windowed 2 (withMax unitSlot 2 2) lastSwapped ∧
    run (withMax unitSlot 2 2) lastSwapped = .error .uninitRead := by
  have h0 : (withMax unitSlot 2 2 : ReorderBuffer Unit).len = 0 ∧
      (withMax unitSlot 2 2 : ReorderBuffer Unit).nextExpected = 0 := ⟨rfl, rfl⟩
  obtain ⟨out, hout⟩ := run_inOrder h0 (n := maxVal - 2) (by omega)
  have h1 : run (withMax unitSlot 2 2) (inOrder (maxVal - 2) ++ [(maxVal - 1, ())]) = .ok (afterLast, out ++ []) := by
    rw [run_snoc, hout]
    show Reorder.step (beforeLast, out) (maxVal - 1, ()) = _
    simp only [Reorder.step, insert_last]; rfl
  refine ⟨windowed_snoc (windowed_snoc (windowed_inOrder h0 (by omega)) fun st hst => ?_) fun st hst => ?_, ?_⟩
  · rw [hout] at hst
    cases hst
    show maxVal - 1 < maxVal - 2 + 2
    decide
  · rw [h1] at hst
    cases hst
    show maxVal - 2 < maxVal - 2 + 2
    decide
  · rw [lastSwapped, run_snoc, h1]
    show Reorder.step (afterLast, out ++ []) (maxVal - 2, ()) = _
    simp only [Reorder.step, insert_past]; rfl

/-- **The unrestricted statement fails at the ends of the word**: an initial capacity of 2^60 (the slot array would have 2^63
bytes), the complete run of `u64::MAX` seqs (an empty slot is read), and `auto` above 2^63 items (an item is dropped). -/
theorem window_fails_at_word_end :
    (Windowed (2 ^ 60) (withMax unitSlot (2 ^ 60) 8) [(1, ())] ∧
      run (withMax unitSlot (2 ^ 60) 8) [(1, ())] = .error .capacityOverflow) ∧
    ((lastSwapped.map Prod.fst).Nodup ∧ (∀ o ∈ lastSwapped, o.1 < maxVal) ∧ Windowed 2 (withMax unitSlot 2 2) lastSwapped ∧
      run (withMax unitSlot 2 2) lastSwapped = .error .uninitRead) ∧
    (firstSwapped.map Prod.fst).Perm (List.range (2 ^ 63 + 1)) ∧
    ∃ (b : ReorderBuffer Unit) (out : List Unit),
      run ((auto (2 ^ 63 + 1) 0).buffer unitSlot) firstSwapped = .ok (b, out) ∧ 0 < b.dropped :=
  ⟨by decide, ⟨lastSwapped_seqs.1, lastSwapped_seqs.2, flush_past_max⟩, firstSwapped_seqs, auto_overflow⟩

end YouPipe.Ordered
