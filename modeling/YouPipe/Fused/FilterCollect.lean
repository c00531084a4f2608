/-
The filter collects over borrowed input, as a whole.

- `filter_collects_agree`: on a chain that does not panic the merge tree, count-then-place and write-then-compact return the
  sequential `filter_map`, under every schedule and split budget; the bounds of count-then-place tile the output, and the in-place
  sweep of write-then-compact moves every segment before anything is written over it.
- `filter_collects_resolve`: a pass that unwinds leaves no output live and drops nothing twice. Count-then-place unwinds exactly
  when an item panics or a leaf keeps another number of items in the place pass than were counted; otherwise it returns the place
  pass's survivors.
- `swapped_answers`: answers that differ without changing the count of a leaf go unnoticed.
-/
import Mathlib.Tactic
import YouPipe.Fused.Compact

namespace YouPipe.Fused

open YouPipe.Halving YouPipe.Tiling

variable {R P : Type}

/-- the passes of one chain agree -/
theorem agree_self {op : ℕ → Pick R P} {n : ℕ} (depth : ℕ) (h : quiet op n 0 = true) : Agree op op depth n :=
  ⟨h, h, fun _ _ => rfl⟩

/-- the output bounds of the leaves after a count pass -/
theorem counts_tile {op : ℕ → Pick R P} (turn : ℕ → ℕ → Turn) (depth : ℕ) {n : ℕ} (hq : quiet op n 0 = true) {counts : List ℕ}
    (hcounts : counts = (List.range (splitLeafCount n depth)).map (countFilterRec op turn depth 0 n 0 fun _ => 0).2) :
    counts = (leafRanges depth 0 n).map (fun p => (kept op (p.2 - p.1) p.1).length) ∧
      Tiles 0 ((List.range counts.length).map fun i => ((ctxOf counts).bound i, (ctxOf counts).bound (i + 1)))
        (kept op n 0).length := by
  obtain ⟨-, hcounted⟩ := (count_spec op turn depth n fun _ => 0).1 hq
  have hcount : splitLeafCount n depth = (leafRanges depth 0 n).length := by rw [← splitLeafCount_eq depth 0 n, Nat.sub_zero]
  have hlist : counts = (leafRanges depth 0 n).map fun p => (kept op (p.2 - p.1) p.1).length := by
    rw [hcounts]
    refine List.ext_getElem? fun i => ?_
    rw [List.getElem?_map, List.getElem?_map, hcount]
    rcases hi : (leafRanges depth 0 n)[i]? with _ | p
    · rw [List.getElem?_eq_none]
      · rfl
      · rw [List.length_range]
        exact List.getElem?_eq_none_iff.1 hi
    · have hstored := hcounted i p hi
      rw [Nat.zero_add] at hstored
      rw [List.getElem?_range (List.getElem?_eq_some_iff.1 hi).1, Option.map_some, Option.map_some, hstored]
  have hsum : counts.sum = (kept op n 0).length := by
    have hkept := (keptOf_tiles op (leafRanges_tiles depth (Nat.zero_le n))).1
    rw [Nat.sub_zero] at hkept
    rw [hlist, ← hkept, keptOf, List.length_flatMap]
  have htiles := scan_tiles counts
  rw [hsum] at htiles
  exact ⟨hlist, htiles⟩

/-! ## Results -/

/-- **The three filter collects agree.** For every slice, chain, split budget and schedule of each pass:
* the merge tree, count-then-place and write-then-compact, whatever the size of an output, return the sequential `filter_map`
  without an illegal access;
* the counts are those of the leaves in order, and the bounds made of them tile the output, one range behind the other;
* after the write pass the in-place sweep is legal and finds every segment as it was written, and both compactions of the
  segments give the `filter_map`. -/
theorem filter_collects_agree {I O P : Type} (stages : Chain I O) (input : List I) (depth size : ℕ)
    (turn₁ turn₂ turn₃ turn₄ turn₅ : ℕ → ℕ → Turn) :
    joinFusedCollectByRef (pick stages input : ℕ → Pick O P) turn₁ depth 0 input.length = .ok (input.filterMap stages.apply) ∧
    (∃ m, fusedFilterCollectByRefCtp (pick stages input : ℕ → Pick O P) (pick stages input) turn₂ turn₃ input.length depth =
      (.ok (some (input.filterMap stages.apply)), m) ∧ m.faults = 0) ∧
    (∃ bufs, fusedFilterCollectByRefWtc (pick stages input : ℕ → Pick O P) turn₄ turn₅ size input.length depth =
      (.ok (some (input.filterMap stages.apply)), bufs) ∧ bufs.src.faults = 0 ∧ bufs.dst.faults = 0) ∧
    (∃ counts, counts = (List.range (splitLeafCount input.length depth)).map
        (countFilterRec (pick stages input : ℕ → Pick O P) turn₂ depth 0 input.length 0 fun _ => 0).2 ∧
      counts = (leafRanges depth 0 input.length).map (fun p =>
        (kept (pick stages input : ℕ → Pick O P) (p.2 - p.1) p.1).length) ∧
      Tiles 0 ((List.range counts.length).map fun i => ((ctxOf counts).bound i, (ctxOf counts).bound (i + 1)))
        (input.filterMap stages.apply).length) ∧
    ∃ st segs, writeFilterRec (pick stages input : ℕ → Pick O P) turn₄ depth 0 input.length 0 Pass.fresh = (.ok (), st) ∧
      segments ((List.range (splitLeafCount input.length depth)).map st.metas) 0 =
        (segs, (input.filterMap stages.apply).length) ∧
      (∀ k, ∀ p ∈ (leafRanges depth 0 input.length).drop k,
        InPlace (pick stages input : ℕ → Pick O P) p (sweepSegs (segs.take k) st.output)) ∧
      (sweepSegs segs st.output).faults = 0 ∧
      intoVec (sweepSegs segs st.output) (input.filterMap stages.apply).length = some (input.filterMap stages.apply) ∧
      intoVec (compactFilterRec segs turn₅ depth 0 segs.length ⟨st.output, Mem.fresh⟩).dst (input.filterMap stages.apply).length =
        some (input.filterMap stages.apply) := by
  obtain ⟨op, hop⟩ : ∃ op, op = (pick stages input : ℕ → Pick O P) := ⟨_, rfl⟩
  obtain ⟨hkept, hquiet⟩ := kept_pick (P := P) stages input
  rw [← hop] at hkept hquiet ⊢
  have hall := (keptOf_tiles op (leafRanges_tiles depth (Nat.zero_le input.length))).1
  rw [Nat.sub_zero] at hall
  rw [← hkept]
  refine ⟨merge_spec op turn₁ depth (Nat.zero_le _) hquiet, ?_, ?_, ?_, ?_⟩
  · obtain ⟨hlegal, hagree, -⟩ := ctp_spec op op turn₂ turn₃ input.length depth
    exact ⟨_, Prod.ext (hagree (agree_self depth hquiet)).1 rfl, hlegal⟩
  · obtain ⟨hsrc, hdst, hok, -⟩ := wtc_spec op turn₄ turn₅ size input.length depth
    exact ⟨_, Prod.ext (hok hquiet) rfl, hsrc, hdst⟩
  · obtain ⟨hcounts, htiles⟩ := counts_tile turn₂ depth hquiet rfl
    exact ⟨_, rfl, hcounts, htiles⟩
  · obtain ⟨hres, hin, hmetas, hlegal⟩ := write_quiet turn₄ depth hquiet
    have htiles := leafRanges_tiles depth (Nat.zero_le input.length)
    obtain ⟨hf, hsweep, hf', -, -⟩ := compactions_agree op htiles hin turn₅ depth
    rw [hall] at hf hf'
    refine ⟨_, segsOf op (leafRanges depth 0 input.length) 0, Prod.ext hres rfl, ?_, ?_, hsweep.trans hlegal, intoVec_filled hf,
      intoVec_filled hf'⟩
    · rw [hmetas]
      refine Prod.ext rfl ?_
      rw [segments_total, hall, Nat.zero_add]
    · intro k p hp
      exact sweep_untouched htiles hin k hp le_rfl fun i _ h2 => by omega

/-- nothing illegal happened and no output is live: whatever was written has been dropped, once -/
def Cleaned (m : Mem R) : Prop := m.faults = 0 ∧ ∀ i, m.output i = .unwritten ∨ m.output i = .dropped

/-- **Panics in the filter collects**, for every number of items, split budget, pattern of panics and schedule:
* a place pass that unwinds, whatever counts it was given for its leaves, leaves no output live and has dropped nothing twice and
  nothing unwritten;
* so does a write-then-compact call that unwinds, and it does exactly when an item panics;
* a count-then-place call unwinds exactly when an item panics in one of the passes or some leaf keeps another number of items in
  the place pass than in the count pass, and then it leaves no output live; otherwise it returns the place pass's survivors in
  order, every slot of them written and no other slot live. -/
theorem filter_collects_resolve :
    (∀ (op : ℕ → Pick R P) (turn : ℕ → ℕ → Turn) (depth n : ℕ) (counts : List ℕ), counts.length = splitLeafCount n depth →
      ∀ p m, placeFilterRec op (ctxOf counts) turn depth 0 n 0 Mem.fresh = (.error p, m) → Cleaned m) ∧
    (∀ (op : ℕ → Pick R P) (turn turn' : ℕ → ℕ → Turn) (size n depth : ℕ),
      ((∃ p, (fusedFilterCollectByRefWtc op turn turn' size n depth).1 = .error p) ↔ quiet op n 0 = false) ∧
      ∀ p bufs, fusedFilterCollectByRefWtc op turn turn' size n depth = (.error p, bufs) → Cleaned bufs.src) ∧
    ∀ (op op' : ℕ → Pick R P) (turn turn' : ℕ → ℕ → Turn) (n depth : ℕ),
      ((∃ p, (fusedFilterCollectByRefCtp op op' turn turn' n depth).1 = .error p) ↔ ¬ Agree op op' depth n) ∧
      (∀ p m, fusedFilterCollectByRefCtp op op' turn turn' n depth = (.error p, m) → Cleaned m) ∧
      ∀ v m, fusedFilterCollectByRefCtp op op' turn turn' n depth = (.ok v, m) →
        v = some (kept op' n 0) ∧ m.faults = 0 ∧ Filled 0 (kept op' n 0) m ∧
          ∀ i, (kept op' n 0).length ≤ i → m.output i = .unwritten := by
  refine ⟨?_, ?_, ?_⟩
  · intro op turn depth n counts hlen p m hrun
    have hlen' : counts.length = (leafRanges depth 0 n).length := by rw [hlen, ← splitLeafCount_eq depth 0 n, Nat.sub_zero]
    obtain ⟨hw, hres⟩ := place_spec op counts turn hlen'
    rw [hrun] at hw hres
    refine ⟨hw.legal, fun i => ?_⟩
    rcases hres with ⟨hok, -⟩ | ⟨-, -, hv⟩
    · cases hok
    · rcases Nat.lt_or_ge i counts.sum with hlt | hge
      · exact hv i (Nat.zero_le i) hlt
      · exact Or.inl (hw.outside i (Or.inr hge))
  · intro op turn turn' size n depth
    obtain ⟨hlegal, -, hok, herr⟩ := wtc_spec op turn turn' size n depth
    rcases hq : quiet op n 0 with _ | _
    · refine ⟨iff_of_true (herr hq).1 rfl, ?_⟩
      intro p bufs hrun
      rw [hrun] at hlegal herr
      exact ⟨hlegal, (herr hq).2⟩
    · refine ⟨iff_of_false ?_ Bool.true_eq_false_eq_False, ?_⟩
      · rintro ⟨p, hp⟩
        rw [hok hq] at hp
        cases hp
      · intro p bufs hrun
        have := hok hq
        rw [hrun] at this
        cases this
  · intro op op' turn turn' n depth
    obtain ⟨hlegal, hgood, hbad⟩ := ctp_spec op op' turn turn' n depth
    by_cases hagree : Agree op op' depth n
    · obtain ⟨hok, hf, hrest⟩ := hgood hagree
      refine ⟨iff_of_false ?_ (not_not.2 hagree), ?_, ?_⟩
      · rintro ⟨p, hp⟩
        rw [hok] at hp
        cases hp
      · intro p m hrun
        rw [hrun] at hok
        cases hok
      · intro v m hrun
        rw [hrun] at hok hf hrest hlegal
        cases hok
        exact ⟨rfl, hlegal, hf, hrest⟩
    · obtain ⟨⟨p, hp⟩, hvoid⟩ := hbad hagree
      refine ⟨iff_of_true ⟨p, hp⟩ hagree, ?_, ?_⟩
      · intro q m hrun
        rw [hrun] at hlegal hvoid
        exact ⟨hlegal, hvoid⟩
      · intro v m hrun
        rw [hrun] at hp
        cases hp

/-- everything is kept, but item 2 panics -/
def panicAtTwo (i : ℕ) : Pick ℕ ℕ := if i = 2 then .panics i else .keep i

/-- four items, nothing stolen, and item 2 panics: both calls unwind and drop what they had written. The write pass has three
outputs by then; the place pass, where the item did not panic when it was counted, has those of the first leaf. -/
theorem filter_collects_resolve_panicAtTwo :
    (fusedFilterCollectByRefWtc panicAtTwo (fun _ _ => .popped) (fun _ _ => .popped) 8 4 2).1 = .error 2 ∧
    ([0, 1, 2, 3].map (fusedFilterCollectByRefWtc panicAtTwo (fun _ _ => .popped) (fun _ _ => .popped) 8 4 2).2.src.output) =
      [.dropped, .dropped, .unwritten, .dropped] ∧
    Cleaned (fusedFilterCollectByRefWtc panicAtTwo (fun _ _ => .popped) (fun _ _ => .popped) 8 4 2).2.src ∧
    (fusedFilterCollectByRefCtp .keep panicAtTwo (fun _ _ => .popped) (fun _ _ => .popped) 4 1).1 = .error (.stage 2) ∧
    ([0, 1, 2, 3].map (fusedFilterCollectByRefCtp .keep panicAtTwo (fun _ _ => .popped) (fun _ _ => .popped) 4 1).2.output) =
      [.dropped, .dropped, .unwritten, .unwritten] ∧
    Cleaned (fusedFilterCollectByRefCtp .keep panicAtTwo (fun _ _ => .popped) (fun _ _ => .popped) 4 1).2 := by
  refine ⟨by decide, by decide, ?_, by decide, by decide, ?_⟩
  · exact (filter_collects_resolve.2.1 panicAtTwo (fun _ _ => .popped) (fun _ _ => .popped) 8 4 2).2 2 _ (Prod.ext (by decide) rfl)
  · exact (filter_collects_resolve.2.2 .keep panicAtTwo (fun _ _ => .popped) (fun _ _ => .popped) 4 1).2.1 (.stage 2) _
      (Prod.ext (by decide) rfl)

/-- only item `k` is kept -/
def keepOnly (k i : ℕ) : Pick ℕ ℕ := if i = k then .keep i else .skip

/-- **Answers that swap.** Four items in two leaves; of the first leaf the count pass keeps the first item and the place pass the
second. The counts are the same, and the call returns the second item. -/
theorem swapped_answers : ¬ ∀ (op op' : ℕ → Pick ℕ ℕ) (turn turn' : ℕ → ℕ → Turn) (n depth : ℕ),
    quiet op n 0 = true → quiet op' n 0 = true → (∃ i < n, op i ≠ op' i) →
      ∃ p, (fusedFilterCollectByRefCtp op op' turn turn' n depth).1 = .error p := by
  intro h
  obtain ⟨p, hp⟩ := h (keepOnly 0) (keepOnly 1) (fun _ _ => .popped) (fun _ _ => .popped) 4 1 (by decide) (by decide)
    ⟨0, by decide, by decide⟩
  have hret : (fusedFilterCollectByRefCtp (keepOnly 0) (keepOnly 1) (fun _ _ => .popped) (fun _ _ => .popped) 4 1).1 =
      .ok (some [1]) := by decide
  rw [hret] at hp
  cases hp

end YouPipe.Fused
