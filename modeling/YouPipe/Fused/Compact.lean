/-
Write-then-compact. The write pass leaves every leaf's survivors at the low end of its own range and their number in its meta; a
leaf that panics has dropped what it wrote and stored nothing. After a panic the walk over the metas drops the other leaves'
survivors. Otherwise the segments are moved together: in place, one after the other, or by a fork/join recursion into a buffer
of their own.

- `write_spec`: every leaf is written or cleaned up, and the pass unwinds exactly when some item panics.
- `sweep_spec`: the in-place sweep is legal, and up to its turn every segment is untouched.
- `compact_spec`: the parallel copy fills the other buffer with the same values, under every schedule.
-/
import Mathlib.Tactic
import YouPipe.Fused.Place

namespace YouPipe.Fused

open YouPipe.Halving YouPipe.Tiling YouPipe.ForkJoin

variable {R P : Type}

/-! ## The write pass -/

theorem writeLoop_spec (op : ℕ → Pick R P) (out cap n : ℕ) : ∀ (i : ℕ) (vs : List R) (m : Mem R), vs.length + n ≤ cap →
    Filled out vs m → Uninit (out + vs.length) (out + cap) m →
    Works out (out + cap) m (writeLoop op out n i vs.length m).2 ∧
      (((writeLoop op out n i vs.length m).1 = .ok (vs ++ kept op n i).length ∧ quiet op n i = true ∧
          Filled out (vs ++ kept op n i) (writeLoop op out n i vs.length m).2 ∧
          Uninit (out + (vs ++ kept op n i).length) (out + cap) (writeLoop op out n i vs.length m).2) ∨
        ((∃ p, (writeLoop op out n i vs.length m).1 = .error p) ∧ quiet op n i = false ∧
          Void out (out + cap) (writeLoop op out n i vs.length m).2)) := by
  induction n with
  | zero =>
    intro i vs m _ hf hu
    have hkept : vs ++ kept op 0 i = vs := by simp [kept]
    rw [hkept]
    exact ⟨Works.refl _ _ m, Or.inl ⟨rfl, rfl, hf, hu⟩⟩
  | succ n ih =>
    intro i vs m hcap hf hu
    rcases ho : op i with r | _ | p
    · obtain ⟨hw, hf', hu'⟩ := write_next r (by omega) hf hu
      have hlen : (vs ++ [r]).length = vs.length + 1 := by simp
      obtain ⟨hw', hres⟩ := ih (i + 1) (vs ++ [r]) (m.write (out + vs.length) r) (by omega) hf' hu'
      have hrun : writeLoop op out (n + 1) i vs.length m =
          writeLoop op out n (i + 1) (vs ++ [r]).length (m.write (out + vs.length) r) := by
        simp only [writeLoop, ho, hlen]
      obtain ⟨hkept, hquiet⟩ := survivors_keep ho n
      rw [List.append_assoc, List.singleton_append] at hres
      rw [hrun, hquiet, hkept]
      exact ⟨hw.trans hw', hres⟩
    · have hrun : writeLoop op out (n + 1) i vs.length m = writeLoop op out n (i + 1) vs.length m := by
        simp only [writeLoop, ho]
      obtain ⟨hkept, hquiet⟩ := survivors_skip ho n
      rw [hrun, hquiet, hkept]
      exact ih (i + 1) vs m (by omega) hf hu
    · have hrun : writeLoop op out (n + 1) i vs.length m = (.error p, m.dropRange vs.length out) := by
        simp only [writeLoop, ho]
      obtain ⟨hw, hv⟩ := drop_written (by omega) hf hu
      rw [hrun]
      exact ⟨hw, Or.inr ⟨⟨p, rfl⟩, quiet_panics ho n, hv⟩⟩

/-- how the write pass leaves one leaf: its survivors at the low end and their number in the meta, or everything dropped and
nothing stored -/
def LeafWritten (op : ℕ → Pick R P) (x : LeafMeta) (p : ℕ × ℕ) (m : Mem R) : Prop :=
  (quiet op (p.2 - p.1) p.1 = true ∧ x = ⟨p.1, (kept op (p.2 - p.1) p.1).length⟩ ∧ Filled p.1 (kept op (p.2 - p.1) p.1) m ∧
      Uninit (p.1 + (kept op (p.2 - p.1) p.1).length) p.2 m) ∨
    (quiet op (p.2 - p.1) p.1 = false ∧ x.kept = 0 ∧ Void p.1 p.2 m)

/-- the slots of `[lo, hi)` are the same -/
def Same (lo hi : ℕ) (m m' : Mem R) : Prop := ∀ i, lo ≤ i → i < hi → m'.output i = m.output i

theorem LeafWritten.frame {op : ℕ → Pick R P} {x : LeafMeta} {p : ℕ × ℕ} {m m' : Mem R} (h : LeafWritten op x p m)
    (hs : Same p.1 p.2 m m') : LeafWritten op x p m' := by
  have hle := kept_length_le op (p.2 - p.1) p.1
  rcases h with ⟨hq, hx, hf, hu⟩ | ⟨hq, hx, hv⟩
  · refine Or.inl ⟨hq, hx, ?_, ?_⟩
    · intro j r hj
      have hlt := (List.getElem?_eq_some_iff.1 hj).1
      rw [hs (p.1 + j) (by omega) (by omega)]
      exact hf j r hj
    · intro i h1 h2
      rw [hs i (by omega) h2]
      exact hu i h1 h2
  · refine Or.inr ⟨hq, hx, ?_⟩
    intro i h1 h2
    rw [hs i h1 h2]
    exact hv i h1 h2

/-- legal work within the ranges of these leaves, and stores under their numbers -/
structure WriteTouch (ls : List (ℕ × ℕ)) (base : ℕ) (st st' : Pass R) : Prop where
  stores : Stores ls base st.metas st'.metas
  legal : st'.output.faults = st.output.faults
  outside : ∀ i, (∀ p ∈ ls, i < p.1 ∨ p.2 ≤ i) → st'.output.output i = st.output.output i

/-- a leaf of the other half keeps its slots -/
theorem WriteTouch.same_right {s mid e base : ℕ} {l r : List (ℕ × ℕ)} {st st' : Pass R} (h : WriteTouch l base st st')
    (hl : Tiles s l mid) (hr : Tiles mid r e) {q : ℕ × ℕ} (hq : q ∈ r) : Same q.1 q.2 st.output st'.output := by
  intro i h1 h2
  refine h.outside i fun p hp => ?_
  have hp' := (hl.bounds.2 p hp).2.2
  have hq' := (hr.bounds.2 q hq).1
  omega

theorem WriteTouch.same_left {s mid e base : ℕ} {l r : List (ℕ × ℕ)} {st st' : Pass R} (h : WriteTouch r base st st')
    (hl : Tiles s l mid) (hr : Tiles mid r e) {q : ℕ × ℕ} (hq : q ∈ l) : Same q.1 q.2 st.output st'.output := by
  intro i h1 h2
  refine h.outside i fun p hp => ?_
  have hp' := (hr.bounds.2 p hp).1
  have hq' := (hl.bounds.2 q hq).2.2
  omega

theorem Uninit.same {lo hi : ℕ} {m m' : Mem R} (h : Uninit lo hi m) (hs : Same lo hi m m') : Uninit lo hi m' := by
  intro i h1 h2
  rw [hs i h1 h2]
  exact h i h1 h2

/-- one leaf of the write pass: written and noted, or everything dropped and nothing noted -/
theorem writeLeaf_spec (op : ℕ → Pick R P) {s e base : ℕ} {st : Pass R} (hs : s ≤ e) (hzero : (st.metas base).kept = 0)
    (hu : Uninit s e st.output) : (Yields op [(s, e)] () (writeLeaf op s e base st).1 ∧
      ∀ i p, [(s, e)][i]? = some p → LeafWritten op ((writeLeaf op s e base st).2.metas (base + i)) p (writeLeaf op s e base st).2.output) ∧
      WriteTouch [(s, e)] base st (writeLeaf op s e base st).2 := by
  have hse : s + (e - s) = e := by omega
  obtain ⟨hw, hres⟩ := writeLoop_spec op s (e - s) (e - s) s [] st.output (by simp) (filled_nil _ _) (by rw [hse]; exact hu)
  rw [hse, List.nil_append] at hres
  rw [hse] at hw
  obtain ⟨⟨res, m⟩, hrun⟩ : ∃ r, r = writeLoop op s (e - s) s 0 st.output := ⟨_, rfl⟩
  rw [List.length_nil, ← hrun] at hw hres
  have houtside : ∀ i, (∀ p ∈ [(s, e)], i < p.1 ∨ p.2 ≤ i) → m.output i = st.output.output i := by
    intro i hi
    exact hw.outside i (hi (s, e) (List.mem_singleton_self _))
  rw [Yields, quietOn_singleton]
  rcases hres with ⟨rfl, hq, hf, hrest⟩ | ⟨⟨p, rfl⟩, hq, hv⟩
  · have hleaf : writeLeaf op s e base st = (.ok (), ⟨m, Function.update st.metas base ⟨s, (kept op (e - s) s).length⟩⟩) := by
      simp only [writeLeaf, ← hrun]
    rw [hleaf, hq]
    refine ⟨⟨⟨fun _ => rfl, by simp⟩, ?_⟩, stores_update s e base st.metas _, hw.legal, houtside⟩
    rw [forall_leaf_singleton (Q := fun k p => LeafWritten op
      (Function.update st.metas base ⟨s, (kept op (e - s) s).length⟩ k) p m), Function.update_self]
    exact Or.inl ⟨hq, rfl, hf, hrest⟩
  · have hleaf : writeLeaf op s e base st = (.error p, ⟨m, st.metas⟩) := by simp only [writeLeaf, ← hrun]
    rw [hleaf, hq]
    refine ⟨⟨⟨by simp, fun _ => ⟨p, rfl⟩⟩, ?_⟩, fun _ _ => rfl, hw.legal, houtside⟩
    rw [forall_leaf_singleton (Q := fun k q => LeafWritten op (st.metas k) q m)]
    exact Or.inr ⟨hq, hzero, hv⟩

theorem write_proof (op : ℕ → Pick R P) :
    Proof (fun ls base st => ∀ i p, ls[i]? = some p → (st.metas (base + i)).kept = 0 ∧ Uninit p.1 p.2 st.output)
      (fun ls base r st => Yields op ls () r ∧ ∀ i p, ls[i]? = some p → LeafWritten op (st.metas (base + i)) p st.output)
      WriteTouch (writeLeaf op) writeNode where
  leaf := by
    intro s e base st hs hpre
    obtain ⟨hzero, hu⟩ := hpre 0 (s, e) rfl
    exact writeLeaf_spec op hs hzero hu
  node := by
    intro s mid e base l r a b st turn _ _ ha hb
    have hsame : (writeNode turn base (base + l.length) (base + l.length + r.length) a b st).2 = st := by
      unfold writeNode
      split
      · rfl
      · rfl
    rw [hsame]
    refine ⟨⟨?_, ?_⟩, fun _ _ => rfl, rfl, fun _ _ => rfl⟩
    · refine ha.1.node hb.1 turn.isStolen (fun _ _ => ()) ?_ ?_
      · intro x y h
        simp only [writeNode, h]
      · intro p h
        simp only [writeNode, h]
    · exact (forall_leaf_append _ _ _ fun k p => LeafWritten op (st.metas k) p st.output).2 ⟨ha.2, hb.2⟩
  fork := by
    intro s mid e base l r st _ _ hpre
    exact (forall_leaf_append _ _ _ fun k p => (st.metas k).kept = 0 ∧ Uninit p.1 p.2 st.output).1 hpre
  left := by
    intro s mid e base l r st₀ st st' hl hr _ ht
    refine ⟨⟨ht.stores.left, ht.legal, ?_⟩, ?_, ?_⟩
    · intro i hi
      exact ht.outside i fun p hp => hi p (List.mem_append_left r hp)
    · intro hpre i q hi
      rw [ht.stores.at_right i]
      exact ⟨(hpre i q hi).1, (hpre i q hi).2.same (ht.same_right hl hr (List.mem_of_getElem? hi))⟩
    · rintro b ⟨hy, hb⟩
      refine ⟨hy, fun i q hi => ?_⟩
      rw [ht.stores.at_right i]
      exact (hb i q hi).frame (ht.same_right hl hr (List.mem_of_getElem? hi))
  right := by
    intro s mid e base l r st₀ st st' hl hr _ ht
    refine ⟨⟨ht.stores.right, ht.legal, ?_⟩, ?_, ?_⟩
    · intro i hi
      exact ht.outside i fun p hp => hi p (List.mem_append_right l hp)
    · intro hpre i q hi
      rw [ht.stores.at_left hi]
      exact ⟨(hpre i q hi).1, (hpre i q hi).2.same (ht.same_left hl hr (List.mem_of_getElem? hi))⟩
    · rintro a ⟨hy, ha⟩
      refine ⟨hy, fun i q hi => ?_⟩
      rw [ht.stores.at_left hi]
      exact (ha i q hi).frame (ht.same_left hl hr (List.mem_of_getElem? hi))
  trans := by
    intro base l st st' st'' h h'
    exact ⟨h.stores.trans h'.stores, h'.legal.trans h.legal, fun i hi => (h'.outside i hi).trans (h.outside i hi)⟩

/-- the buffer and the metas before the write pass -/
def Pass.fresh : Pass R := ⟨Mem.fresh, fun _ => ⟨0, 0⟩⟩

/-- **The write pass** on a fresh buffer -/
theorem write_spec (op : ℕ → Pick R P) (turn : ℕ → ℕ → Turn) (depth n : ℕ) :
    Yields op (leafRanges depth 0 n) () (writeFilterRec op turn depth 0 n 0 Pass.fresh).1 ∧
      (∀ i p, (leafRanges depth 0 n)[i]? = some p → LeafWritten op
        ((writeFilterRec op turn depth 0 n 0 Pass.fresh).2.metas i) p (writeFilterRec op turn depth 0 n 0 Pass.fresh).2.output) ∧
      Works 0 n Mem.fresh (writeFilterRec op turn depth 0 n 0 Pass.fresh).2.output := by
  obtain ⟨⟨hyields, hleaves⟩, htouch⟩ := halve_spec (write_proof op) splitLeafCount_eq turn depth 0 Pass.fresh
    (Nat.zero_le n) fun i p _ => ⟨rfl, fun _ _ _ => rfl⟩
  refine ⟨hyields, ?_, htouch.legal, ?_⟩
  · intro i p hi
    have := hleaves i p hi
    rwa [Nat.zero_add] at this
  · intro i hi
    refine htouch.outside i fun p hp => ?_
    have := (leafRanges_tiles depth (Nat.zero_le n)).bounds.2 p hp
    omega

/-! ## The walk after a panic -/

theorem dropMetas_spec {op : ℕ → Pick R P} {metas : ℕ → LeafMeta} {s e : ℕ} {ls : List (ℕ × ℕ)} (ht : Tiles s ls e) :
    ∀ (base : ℕ) (m : Mem R), (∀ i p, ls[i]? = some p → LeafWritten op (metas (base + i)) p m) →
      Works s e m (dropMetas ((List.range' base ls.length).map metas) m) ∧
        Void s e (dropMetas ((List.range' base ls.length).map metas) m) := by
  induction ht with
  | nil a => intro base m _; exact ⟨Works.refl _ _ m, fun i h1 h2 => by omega⟩
  | @cons a b c l hab ht ih =>
    intro base m h
    have hbc := ht.bounds.1
    -- the first leaf: its survivors are dropped, or it has none
    have hfirst : Works a b m (m.dropRange (metas base).kept (metas base).start) ∧
        Void a b (m.dropRange (metas base).kept (metas base).start) := by
      have hle := kept_length_le op (b - a) a
      rcases h 0 (a, b) rfl with ⟨-, hx, hf, hu⟩ | ⟨-, hx, hv⟩
      · rw [Nat.add_zero] at hx
        rw [hx]
        have hab' : a + (b - a) = b := by omega
        have := drop_written hle hf (by rw [hab']; exact hu)
        rwa [hab'] at this
      · rw [Nat.add_zero] at hx
        rw [hx]
        exact ⟨Works.refl _ _ m, hv⟩
    obtain ⟨hw, hv⟩ := hfirst
    have hrest : ∀ i p, l[i]? = some p →
        LeafWritten op (metas (base + 1 + i)) p (m.dropRange (metas base).kept (metas base).start) := by
      intro i p hi
      have hp := ht.bounds.2 p (List.mem_of_getElem? hi)
      have := h (i + 1) p hi
      have hidx : base + (i + 1) = base + 1 + i := by omega
      rw [hidx] at this
      exact this.frame fun j h1 h2 => hw.outside j (by omega)
    obtain ⟨hw', hv'⟩ := ih (base + 1) _ hrest
    have hrun : dropMetas ((List.range' base ((a, b) :: l).length).map metas) m =
        dropMetas ((List.range' (base + 1) l.length).map metas) (m.dropRange (metas base).kept (metas base).start) := rfl
    rw [hrun]
    exact ⟨(hw.mono le_rfl hbc).trans (hw'.mono hab le_rfl), (hv.frame hw' (Or.inl le_rfl)).union hv'⟩

/-! ## Moves -/

theorem takeRange_filled (xs : List R) : ∀ {src : ℕ} {m : Mem R}, Filled src xs m →
    ∃ m', takeRange xs.length src m = (xs, m') ∧ Works src (src + xs.length) m m' ∧ Uninit src (src + xs.length) m' := by
  induction xs with
  | nil =>
    intro src m _
    exact ⟨m, rfl, Works.refl _ _ m, fun i h1 h2 => by rw [List.length_nil] at h2; omega⟩
  | cons x xs ih =>
    intro src m hf
    have hx : m.output src = .live x := hf 0 x rfl
    have htake : m.take src = (some x, { m with output := Function.update m.output src .unwritten }) := by simp [Mem.take, hx]
    have hw : Works src (src + 1) m { m with output := Function.update m.output src .unwritten } := by
      refine ⟨rfl, fun i hi => ?_⟩
      exact Function.update_of_ne (by omega) _ _
    have hxs : Filled (src + 1) xs m := (filled_cons.1 hf).2
    obtain ⟨m', hrun, hw', hu'⟩ := ih (hxs.frame hw (Or.inr le_rfl))
    have hlen : src + 1 + xs.length = src + (x :: xs).length := by rw [List.length_cons]; omega
    rw [hlen] at hw' hu'
    refine ⟨m', ?_, (hw.mono le_rfl (by omega)).trans (hw'.mono (by omega) le_rfl), ?_⟩
    · simp only [List.length_cons, takeRange, htake, hrun, Option.toList_some, List.singleton_append]
    · intro i h1 h2
      rcases Nat.eq_or_lt_of_le h1 with rfl | hlt
      · rw [hw'.outside src (Or.inl (by omega))]
        exact Function.update_self _ _ _
      · exact hu' i hlt h2

theorem putRange_uninit (xs : List R) : ∀ {d : ℕ} {m : Mem R}, Uninit d (d + xs.length) m →
    Works d (d + xs.length) m (putRange d xs m) ∧ Filled d xs (putRange d xs m) := by
  induction xs with
  | nil => intro d m _; exact ⟨Works.refl _ _ m, filled_nil d m⟩
  | cons x xs ih =>
    intro d m hu
    have hlen : d + 1 + xs.length = d + (x :: xs).length := by rw [List.length_cons]; omega
    obtain ⟨hw, hlive⟩ := works_write x (hu d le_rfl (by omega))
    have hrest : Uninit (d + 1) (d + 1 + xs.length) (m.write d x) := by
      intro i h1 h2
      rw [hw.outside i (Or.inr h1)]
      exact hu i (by omega) (by omega)
    obtain ⟨hw', hf'⟩ := ih hrest
    rw [hlen] at hw'
    refine ⟨(hw.mono le_rfl (by omega)).trans (hw'.mono (by omega) le_rfl), ?_⟩
    refine filled_cons.2 ⟨?_, hf'⟩
    rw [putRange, hw'.outside d (Or.inl (by omega))]
    exact hlive

/-- a segment moved down over a gap: it arrives, and the gap is now behind it -/
theorem moveSeg_spec {xs : List R} {src dst : ℕ} {m : Mem R} (hle : dst ≤ src) (hf : Filled src xs m) (hgap : Uninit dst src m) :
    Works dst (src + xs.length) m (moveSeg ⟨src, dst, xs.length⟩ m) ∧ Filled dst xs (moveSeg ⟨src, dst, xs.length⟩ m) ∧
      Uninit (dst + xs.length) (src + xs.length) (moveSeg ⟨src, dst, xs.length⟩ m) := by
  obtain ⟨m1, hrun, hw1, hu1⟩ := takeRange_filled xs hf
  have hfree : Uninit dst (src + xs.length) m1 := by
    intro i h1 h2
    rcases Nat.lt_or_ge i src with hlt | hge
    · rw [hw1.outside i (Or.inl hlt)]
      exact hgap i h1 hlt
    · exact hu1 i hge h2
  obtain ⟨hw2, hf2⟩ := putRange_uninit xs (d := dst) (m := m1) fun i h1 h2 => hfree i h1 (by omega)
  have hmove : moveSeg ⟨src, dst, xs.length⟩ m = putRange dst xs m1 := by simp only [moveSeg, hrun]
  rw [hmove]
  refine ⟨(hw1.mono hle le_rfl).trans (hw2.mono le_rfl (by omega)), hf2, ?_⟩
  intro i h1 h2
  rw [hw2.outside i (Or.inr h1)]
  exact hfree i (by omega) h2

/-! ## The in-place sweep -/

/-- the meta of a leaf whose items all went well -/
def metaOf (op : ℕ → Pick R P) (p : ℕ × ℕ) : LeafMeta := ⟨p.1, (kept op (p.2 - p.1) p.1).length⟩

/-- a leaf as the write pass leaves it: its survivors at the low end of its range, nothing behind them -/
def InPlace (op : ℕ → Pick R P) (p : ℕ × ℕ) (m : Mem R) : Prop :=
  Filled p.1 (kept op (p.2 - p.1) p.1) m ∧ Uninit (p.1 + (kept op (p.2 - p.1) p.1).length) p.2 m

theorem InPlace.same {op : ℕ → Pick R P} {p : ℕ × ℕ} {m m' : Mem R} (h : InPlace op p m) (hs : Same p.1 p.2 m m') :
    InPlace op p m' := by
  have hle := kept_length_le op (p.2 - p.1) p.1
  refine ⟨?_, fun i h1 h2 => ?_⟩
  · intro j r hj
    have hlt := (List.getElem?_eq_some_iff.1 hj).1
    rw [hs (p.1 + j) (by omega) (by omega)]
    exact h.1 j r hj
  · rw [hs i (by omega) h2]
    exact h.2 i h1 h2

/-- the segments of a list of leaves -/
def segsOf (op : ℕ → Pick R P) (ls : List (ℕ × ℕ)) (total : ℕ) : List Seg := (segments (ls.map (metaOf op)) total).1

theorem segments_total (op : ℕ → Pick R P) (ls : List (ℕ × ℕ)) : ∀ total : ℕ,
    (segments (ls.map (metaOf op)) total).2 = total + (keptOf op ls).length := by
  induction ls with
  | nil => intro total; rfl
  | cons p ls ih =>
    intro total
    have hkept : (keptOf op (p :: ls)).length = (kept op (p.2 - p.1) p.1).length + (keptOf op ls).length := by simp [keptOf]
    rw [List.map_cons, segments, ih, hkept, metaOf, Nat.add_assoc]

theorem segsOf_cons (op : ℕ → Pick R P) (p : ℕ × ℕ) (ls : List (ℕ × ℕ)) (total : ℕ) : segsOf op (p :: ls) total =
    ⟨p.1, total, (kept op (p.2 - p.1) p.1).length⟩ :: segsOf op ls (total + (kept op (p.2 - p.1) p.1).length) := rfl

theorem segsOf_take (op : ℕ → Pick R P) (ls : List (ℕ × ℕ)) : ∀ k total : ℕ,
    (segsOf op ls total).take k = segsOf op (ls.take k) total := by
  induction ls with
  | nil => intro k total; simp [segsOf, segments]
  | cons p ls ih =>
    intro k total
    rcases k with _ | k
    · rfl
    · rw [segsOf_cons, List.take_succ_cons, List.take_succ_cons, segsOf_cons, ih]

/-- one segment of the sweep: its survivors arrive at `total`, and the free slots reach up to the end of its leaf -/
theorem sweepSeg_spec {op : ℕ → Pick R P} {p : ℕ × ℕ} {total : ℕ} {m : Mem R} (hp : p.1 ≤ p.2) (hle : total ≤ p.1)
    (hin : InPlace op p m) (hgap : Uninit total p.1 m) :
    Works total p.2 m (sweepSeg m ⟨p.1, total, (kept op (p.2 - p.1) p.1).length⟩) ∧
      Filled total (kept op (p.2 - p.1) p.1) (sweepSeg m ⟨p.1, total, (kept op (p.2 - p.1) p.1).length⟩) ∧
      Uninit (total + (kept op (p.2 - p.1) p.1).length) p.2 (sweepSeg m ⟨p.1, total, (kept op (p.2 - p.1) p.1).length⟩) := by
  have hlen := kept_length_le op (p.2 - p.1) p.1
  obtain ⟨hf, hu⟩ := hin
  unfold sweepSeg
  split_ifs with hmove
  · obtain ⟨hw, hf', hu'⟩ := moveSeg_spec hle hf hgap
    refine ⟨hw.mono le_rfl (by omega), hf', ?_⟩
    intro i h1 h2
    rcases Nat.lt_or_ge i (p.1 + (kept op (p.2 - p.1) p.1).length) with hlt | hge
    · exact hu' i h1 hlt
    · rw [hw.outside i (Or.inr hge)]
      exact hu i hge h2
  · -- nothing to move: the segment is empty, or it is where it belongs
    rcases Nat.eq_zero_or_pos (kept op (p.2 - p.1) p.1).length with hzero | hpos
    · have hnil := List.eq_nil_of_length_eq_zero hzero
      rw [hnil]
      rw [hnil, List.length_nil] at hu
      refine ⟨Works.refl _ _ m, filled_nil _ m, ?_⟩
      intro i h1 h2
      rw [List.length_nil] at h1
      rcases Nat.lt_or_ge i p.1 with hlt | hge
      · exact hgap i (by omega) hlt
      · exact hu i (by omega) h2
    · have heq : total = p.1 := by
        by_contra hne
        exact hmove ⟨hpos, hne⟩
      rw [heq]
      exact ⟨Works.refl _ _ m, hf, hu⟩

/-- **The sweep**: the survivors of all leaves arrive in order, and everything behind them up to the last leaf's end is free -/
theorem sweepSegs_spec {op : ℕ → Pick R P} {s e : ℕ} {ls : List (ℕ × ℕ)} (ht : Tiles s ls e) : ∀ (total : ℕ) (m : Mem R),
    total ≤ s → Uninit total s m → (∀ p ∈ ls, InPlace op p m) →
      Works total e m (sweepSegs (segsOf op ls total) m) ∧ Filled total (keptOf op ls) (sweepSegs (segsOf op ls total) m) ∧
        Uninit (total + (keptOf op ls).length) e (sweepSegs (segsOf op ls total) m) := by
  induction ht with
  | nil a =>
    intro total m _ hgap _
    exact ⟨Works.refl _ _ m, filled_nil total m, by simpa [keptOf, segsOf, segments, sweepSegs] using hgap⟩
  | @cons a b c l hab ht ih =>
    intro total m hle hgap hin
    have hlen := kept_length_le op (b - a) a
    have hbc := ht.bounds.1
    obtain ⟨hw, hf, hu⟩ := sweepSeg_spec (p := (a, b)) hab hle (hin (a, b) List.mem_cons_self) hgap
    have hrest : ∀ p ∈ l, InPlace op p (sweepSeg m ⟨a, total, (kept op (b - a) a).length⟩) := by
      intro p hp
      have hp' := ht.bounds.2 p hp
      exact (hin p (List.mem_cons_of_mem _ hp)).same fun i h1 h2 => hw.outside i (by omega)
    obtain ⟨hw', hf', hu'⟩ := ih (total + (kept op (b - a) a).length) _ (by omega) hu hrest
    have hkept : keptOf op ((a, b) :: l) = kept op (b - a) a ++ keptOf op l := rfl
    rw [hkept, segsOf_cons, List.length_append, ← Nat.add_assoc]
    refine ⟨(hw.mono le_rfl hbc).trans (hw'.mono (Nat.le_add_right _ _) le_rfl), ?_, hu'⟩
    exact filled_append.2 ⟨hf.frame hw' (Or.inl le_rfl), hf'⟩

/-- **Up to its turn a segment is untouched**: after the first `k` moves every later leaf is still as the write pass left it -/
theorem sweep_untouched {op : ℕ → Pick R P} {s e : ℕ} {ls : List (ℕ × ℕ)} (ht : Tiles s ls e) {m : Mem R}
    (hin : ∀ p ∈ ls, InPlace op p m) (k : ℕ) {p : ℕ × ℕ} (hp : p ∈ ls.drop k) :
    ∀ {total : ℕ}, total ≤ s → Uninit total s m → InPlace op p (sweepSegs ((segsOf op ls total).take k) m) := by
  intro total hle hgap
  obtain ⟨mid, hl, hr⟩ : ∃ mid, Tiles s (ls.take k) mid ∧ Tiles mid (ls.drop k) e := by
    have hsplit := ht
    rw [← List.take_append_drop k ls] at hsplit
    exact hsplit.split
  rw [segsOf_take]
  obtain ⟨hw, -, -⟩ := sweepSegs_spec hl total m hle hgap fun q hq => hin q (List.mem_of_mem_take hq)
  have hlo := (hr.bounds.2 p hp).1
  exact (hin p (List.mem_of_mem_drop hp)).same fun i h1 h2 => hw.outside i (by omega)

/-! ## The parallel copy -/

/-- the segments, each with its values: as long as they are, and apart from each other in both buffers -/
structure Apart (segs : List Seg) (xs : ℕ → List R) : Prop where
  len : ∀ {j : ℕ} {g : Seg}, segs[j]? = some g → g.len = (xs j).length
  src : ∀ {i j : ℕ} {g h : Seg}, i < j → segs[i]? = some g → segs[j]? = some h → g.src + g.len ≤ h.src
  dst : ∀ {i j : ℕ} {g h : Seg}, i < j → segs[i]? = some g → segs[j]? = some h → g.dst + g.len ≤ h.dst

/-- segment `j` waits to be copied -/
def Ready (segs : List Seg) (xs : ℕ → List R) (j : ℕ) (st : Buffers R) : Prop :=
  ∀ g, segs[j]? = some g → Filled g.src (xs j) st.src ∧ Uninit g.dst (g.dst + g.len) st.dst

/-- segment `j` has been copied -/
def Copied (segs : List Seg) (xs : ℕ → List R) (j : ℕ) (st : Buffers R) : Prop :=
  ∀ g, segs[j]? = some g → Filled g.dst (xs j) st.dst

/-- legal work on the segments with a number in `J` -/
structure CopyTouch (segs : List Seg) (J : ℕ → Prop) (st st' : Buffers R) : Prop where
  legal : st'.src.faults = st.src.faults ∧ st'.dst.faults = st.dst.faults
  src : ∀ i, (∀ j g, J j → segs[j]? = some g → i < g.src ∨ g.src + g.len ≤ i) → st'.src.output i = st.src.output i
  dst : ∀ i, (∀ j g, J j → segs[j]? = some g → i < g.dst ∨ g.dst + g.len ≤ i) → st'.dst.output i = st.dst.output i

section Copy

variable {segs : List Seg} {xs : ℕ → List R} {J K : ℕ → Prop} {st st' st'' : Buffers R}

theorem CopyTouch.refl (segs : List Seg) (J : ℕ → Prop) (st : Buffers R) : CopyTouch segs J st st :=
  ⟨⟨rfl, rfl⟩, fun _ _ => rfl, fun _ _ => rfl⟩

theorem CopyTouch.trans (h : CopyTouch segs J st st') (h' : CopyTouch segs J st' st'') : CopyTouch segs J st st'' :=
  ⟨⟨h'.legal.1.trans h.legal.1, h'.legal.2.trans h.legal.2⟩, fun i hi => (h'.src i hi).trans (h.src i hi),
    fun i hi => (h'.dst i hi).trans (h.dst i hi)⟩

theorem CopyTouch.mono (h : CopyTouch segs J st st') (hJ : ∀ j, J j → K j) : CopyTouch segs K st st' :=
  ⟨h.legal, fun i hi => h.src i fun j g hj => hi j g (hJ j hj), fun i hi => h.dst i fun j g hj => hi j g (hJ j hj)⟩

theorem CopyTouch.ready (hap : Apart segs xs) (h : CopyTouch segs J st st') {k : ℕ} (hk : ¬ J k) (hr : Ready segs xs k st) :
    Ready segs xs k st' := by
  intro g hg
  obtain ⟨hf, hu⟩ := hr g hg
  have hlen := hap.len hg
  refine ⟨?_, ?_⟩
  · intro i r hi
    have hlt := (List.getElem?_eq_some_iff.1 hi).1
    rw [h.src (g.src + i)]
    · exact hf i r hi
    · intro j g' hj hg'
      rcases Nat.lt_trichotomy j k with hjk | rfl | hjk
      · have := hap.src hjk hg' hg
        omega
      · exact absurd hj hk
      · have := hap.src hjk hg hg'
        omega
  · intro i h1 h2
    rw [h.dst i]
    · exact hu i h1 h2
    · intro j g' hj hg'
      rcases Nat.lt_trichotomy j k with hjk | rfl | hjk
      · have := hap.dst hjk hg' hg
        omega
      · exact absurd hj hk
      · have := hap.dst hjk hg hg'
        omega

theorem CopyTouch.copied (hap : Apart segs xs) (h : CopyTouch segs J st st') {k : ℕ} (hk : ¬ J k) (hc : Copied segs xs k st) :
    Copied segs xs k st' := by
  intro g hg i r hi
  have hlt := (List.getElem?_eq_some_iff.1 hi).1
  have hlen := hap.len hg
  rw [h.dst (g.dst + i)]
  · exact hc g hg i r hi
  · intro j g' hj hg'
    rcases Nat.lt_trichotomy j k with hjk | rfl | hjk
    · have := hap.dst hjk hg' hg
      omega
    · exact absurd hj hk
    · have := hap.dst hjk hg hg'
      omega

theorem copySeg_spec (hap : Apart segs xs) {j : ℕ} {g : Seg} (hg : segs[j]? = some g) (hr : Ready segs xs j st) :
    Copied segs xs j (copySeg st g) ∧ CopyTouch segs (· = j) st (copySeg st g) := by
  obtain ⟨hf, hu⟩ := hr g hg
  have hlen := hap.len hg
  rcases Nat.eq_zero_or_pos g.len with hzero | hpos
  · have hnil : xs j = [] := List.eq_nil_of_length_eq_zero (by omega)
    have hrun : copySeg st g = st := by simp [copySeg, hzero]
    rw [hrun]
    refine ⟨?_, CopyTouch.refl segs _ st⟩
    intro g' hg'
    rw [hnil]
    exact filled_nil _ _
  · obtain ⟨m1, htake, hw1, -⟩ := takeRange_filled (xs j) hf
    rw [← hlen] at htake hw1
    obtain ⟨hw2, hf2⟩ := putRange_uninit (xs j) (d := g.dst) (m := st.dst) (by rw [← hlen]; exact hu)
    rw [← hlen] at hw2
    have hrun : copySeg st g = ⟨m1, putRange g.dst (xs j) st.dst⟩ := by simp only [copySeg, hpos, if_true, htake]
    rw [hrun]
    refine ⟨?_, ⟨hw1.legal, hw2.legal⟩, fun i hi => hw1.outside i (hi j g rfl hg), fun i hi => hw2.outside i (hi j g rfl hg)⟩
    intro g' hg'
    rw [hg] at hg'
    cases hg'
    exact hf2

/-- a leaf of the copy: its segments one after the other -/
theorem copyLeaf_spec (hap : Apart segs xs) (n : ℕ) : ∀ (a : ℕ) (st : Buffers R), (∀ j, a ≤ j → j < a + n → Ready segs xs j st) →
    (∀ j, a ≤ j → j < a + n → Copied segs xs j ((slice segs a (a + n)).foldl copySeg st)) ∧
      CopyTouch segs (fun j => a ≤ j ∧ j < a + n) st ((slice segs a (a + n)).foldl copySeg st) := by
  induction n with
  | zero =>
    intro a st _
    have hnone : slice segs a (a + 0) = [] := by simp [slice]
    rw [hnone]
    exact ⟨fun j h1 h2 => by omega, CopyTouch.refl segs _ st⟩
  | succ n ih =>
    intro a st hr
    rcases hg : segs[a]? with _ | g
    · -- past the end there is nothing to copy
      have hout : segs.length ≤ a := List.getElem?_eq_none_iff.1 hg
      have hnone : slice segs a (a + (n + 1)) = [] := by simp [slice, List.drop_eq_nil_of_le hout]
      rw [hnone]
      refine ⟨fun j h1 _ g hg' => ?_, CopyTouch.refl segs _ st⟩
      rw [List.getElem?_eq_none (by omega)] at hg'
      cases hg'
    · obtain ⟨hlt, hget⟩ := List.getElem?_eq_some_iff.1 hg
      have hslice : slice segs a (a + (n + 1)) = g :: slice segs (a + 1) (a + 1 + n) := by
        unfold slice
        have hall : a + (n + 1) - a = n + 1 := by omega
        have hrest : a + 1 + n - (a + 1) = n := by omega
        rw [List.drop_eq_getElem_cons hlt, hget, hall, List.take_succ_cons, hrest]
      obtain ⟨hc, ht⟩ := copySeg_spec hap hg (hr a le_rfl (by omega))
      have hrest : ∀ j, a + 1 ≤ j → j < a + 1 + n → Ready segs xs j (copySeg st g) := by
        intro j h1 h2
        exact ht.ready hap (by omega) (hr j (by omega) (by omega))
      obtain ⟨hcs, hts⟩ := ih (a + 1) (copySeg st g) hrest
      rw [hslice, List.foldl_cons]
      refine ⟨?_, (ht.mono fun j hj => by omega).trans (hts.mono fun j hj => by omega)⟩
      intro j h1 h2
      rcases Nat.eq_or_lt_of_le h1 with rfl | hlt'
      · exact hts.copied hap (by omega) hc
      · exact hcs j hlt' (by omega)

/-- the segment numbers of these leaves -/
def Within (ls : List (ℕ × ℕ)) (j : ℕ) : Prop := ∃ p ∈ ls, p.1 ≤ j ∧ j < p.2

theorem within_append {l r : List (ℕ × ℕ)} {j : ℕ} : Within (l ++ r) j ↔ Within l j ∨ Within r j := by
  unfold Within
  simp only [List.mem_append, or_and_right, exists_or]

theorem within_disjoint {s mid e j : ℕ} {l r : List (ℕ × ℕ)} (hl : Tiles s l mid) (hr : Tiles mid r e) (h : Within l j) :
    ¬ Within r j := by
  obtain ⟨p, hp, hp1, hp2⟩ := h
  rintro ⟨q, hq, hq1, hq2⟩
  have := (hl.bounds.2 p hp).2.2
  have := (hr.bounds.2 q hq).1
  omega

theorem compact_proof (hap : Apart segs xs) :
    Proof (fun ls _ st => ∀ j, Within ls j → Ready segs xs j st) (fun ls _ (_ : Unit) st => ∀ j, Within ls j → Copied segs xs j st)
      (fun ls _ => CopyTouch segs (Within ls)) (fun s e _ st => ((), (slice segs s e).foldl copySeg st))
      (fun _ _ _ _ _ _ st => ((), st)) where
  leaf := by
    intro s e base st hs hpre
    obtain ⟨n, rfl⟩ := Nat.exists_eq_add_of_le hs
    have hin : ∀ j, Within [(s, s + n)] j ↔ s ≤ j ∧ j < s + n := by
      intro j
      simp [Within]
    obtain ⟨hc, ht⟩ := copyLeaf_spec hap n s st fun j h1 h2 => hpre j ((hin j).2 ⟨h1, h2⟩)
    exact ⟨fun j hj => hc j ((hin j).1 hj).1 ((hin j).1 hj).2, ht.mono fun j hj => (hin j).2 hj⟩
  node := by
    intro s mid e base l r a b st turn _ _ ha hb
    refine ⟨fun j hj => ?_, CopyTouch.refl segs _ st⟩
    rcases within_append.1 hj with hj | hj
    · exact ha j hj
    · exact hb j hj
  fork := by
    intro s mid e base l r st _ _ hpre
    exact ⟨fun j hj => hpre j (within_append.2 (Or.inl hj)), fun j hj => hpre j (within_append.2 (Or.inr hj))⟩
  left := by
    intro s mid e base l r st₀ st st' hl hr _ ht
    refine ⟨ht.mono fun j hj => within_append.2 (Or.inl hj), ?_, ?_⟩
    · intro hpre j hj
      exact ht.ready hap (fun hj' => within_disjoint hl hr hj' hj) (hpre j hj)
    · intro b hb j hj
      exact ht.copied hap (fun hj' => within_disjoint hl hr hj' hj) (hb j hj)
  right := by
    intro s mid e base l r st₀ st st' hl hr _ ht
    refine ⟨ht.mono fun j hj => within_append.2 (Or.inr hj), ?_, ?_⟩
    · intro hpre j hj
      exact ht.ready hap (within_disjoint hl hr hj) (hpre j hj)
    · intro a ha j hj
      exact ht.copied hap (within_disjoint hl hr hj) (ha j hj)
  trans := CopyTouch.trans

/-- **The parallel copy**: under every schedule all segments arrive -/
theorem compact_spec (hap : Apart segs xs) (turn : ℕ → ℕ → Turn) (splits : ℕ) (hr : ∀ j, Ready segs xs j st) :
    (∀ j, j < segs.length → Copied segs xs j (compactFilterRec segs turn splits 0 segs.length st)) ∧
      (compactFilterRec segs turn splits 0 segs.length st).src.faults = st.src.faults ∧
      (compactFilterRec segs turn splits 0 segs.length st).dst.faults = st.dst.faults := by
  obtain ⟨hcopied, htouch⟩ := halve_spec (compact_proof hap) splitLeafCount_eq turn splits 0 st
    (Nat.zero_le segs.length) fun j _ => hr j
  refine ⟨fun j hj => hcopied j ?_, htouch.legal⟩
  obtain ⟨p, hp, hpj⟩ := (leafRanges_tiles splits (Nat.zero_le segs.length)).exists_mem (Nat.zero_le j) hj
  exact ⟨p, hp, hpj⟩

end Copy

/-! ## The segments of the write pass -/

/-- the survivors of leaf `j` -/
def leafKept (op : ℕ → Pick R P) (ls : List (ℕ × ℕ)) (j : ℕ) : List R := keptOf op ls[j]?.toList

theorem segsOf_getElem? (op : ℕ → Pick R P) (ls : List (ℕ × ℕ)) : ∀ total j : ℕ,
    (segsOf op ls total)[j]? =
      ls[j]?.map fun p => ⟨p.1, total + (keptOf op (ls.take j)).length, (kept op (p.2 - p.1) p.1).length⟩ := by
  induction ls with
  | nil => intro total j; simp [segsOf, segments]
  | cons q ls ih =>
    intro total j
    rw [segsOf_cons]
    rcases j with _ | j
    · rfl
    · have hkept : (keptOf op ((q :: ls).take (j + 1))).length =
          (kept op (q.2 - q.1) q.1).length + (keptOf op (ls.take j)).length := by simp [keptOf]
      rw [List.getElem?_cons_succ, List.getElem?_cons_succ, ih, hkept, Nat.add_assoc]

theorem keptOf_take_le (op : ℕ → Pick R P) (ls : List (ℕ × ℕ)) {i j : ℕ} {p : ℕ × ℕ} (hij : i < j) (hi : ls[i]? = some p) :
    (keptOf op (ls.take i)).length + (kept op (p.2 - p.1) p.1).length ≤ (keptOf op (ls.take j)).length := by
  obtain ⟨k, rfl⟩ := Nat.exists_eq_add_of_lt hij
  obtain ⟨hlt, hget⟩ := List.getElem?_eq_some_iff.1 hi
  have hsplit : ls.take (i + k + 1) = ls.take i ++ ([p] ++ (ls.drop (i + 1)).take k) := by
    rw [Nat.add_assoc, List.take_add, List.drop_eq_getElem_cons hlt, hget, List.take_succ_cons, List.singleton_append]
  rw [hsplit, keptOf_append, keptOf_append, List.length_append, List.length_append, show keptOf op [p] = _ from
    keptOf_singleton op p.1 p.2]
  omega

theorem apart_segsOf (op : ℕ → Pick R P) {s e : ℕ} {ls : List (ℕ × ℕ)} (ht : Tiles s ls e) (total : ℕ) :
    Apart (segsOf op ls total) (leafKept op ls) := by
  have hseg : ∀ {j : ℕ} {g : Seg}, (segsOf op ls total)[j]? = some g → ∃ p, ls[j]? = some p ∧
      g = ⟨p.1, total + (keptOf op (ls.take j)).length, (kept op (p.2 - p.1) p.1).length⟩ := by
    intro j g hg
    rw [segsOf_getElem?, Option.map_eq_some_iff] at hg
    obtain ⟨p, hp, rfl⟩ := hg
    exact ⟨p, hp, rfl⟩
  refine ⟨?_, ?_, ?_⟩
  · intro j g hg
    obtain ⟨p, hp, rfl⟩ := hseg hg
    simp [leafKept, hp, keptOf]
  · intro i j g h hij hg hh
    obtain ⟨p, hp, rfl⟩ := hseg hg
    obtain ⟨q, hq, rfl⟩ := hseg hh
    obtain ⟨hi, hgi⟩ := List.getElem?_eq_some_iff.1 hp
    obtain ⟨hj, hgj⟩ := List.getElem?_eq_some_iff.1 hq
    have hapart := List.pairwise_iff_getElem.1 ht.pairwise i j hi hj hij
    have hrange := (ht.bounds.2 p (List.mem_of_getElem? hp)).2.1
    have hle := kept_length_le op (p.2 - p.1) p.1
    rw [hgi, hgj] at hapart
    show p.1 + (kept op (p.2 - p.1) p.1).length ≤ q.1
    omega
  · intro i j g h hij hg hh
    obtain ⟨p, hp, rfl⟩ := hseg hg
    obtain ⟨q, hq, rfl⟩ := hseg hh
    have := keptOf_take_le op ls hij hp
    show total + (keptOf op (ls.take i)).length + (kept op (p.2 - p.1) p.1).length ≤ total + (keptOf op (ls.take j)).length
    omega

/-- the leaves' survivors one behind the other -/
theorem filled_leaves (op : ℕ → Pick R P) {m : Mem R} (ls : List (ℕ × ℕ)) : ∀ total : ℕ,
    (∀ j p, ls[j]? = some p → Filled (total + (keptOf op (ls.take j)).length) (kept op (p.2 - p.1) p.1) m) →
      Filled total (keptOf op ls) m := by
  induction ls with
  | nil => intro total _; exact filled_nil total m
  | cons q ls ih =>
    intro total h
    have hfirst : Filled total (kept op (q.2 - q.1) q.1) m := by
      have := h 0 q rfl
      simpa [keptOf] using this
    have hrest : Filled (total + (kept op (q.2 - q.1) q.1).length) (keptOf op ls) m := by
      refine ih _ fun j p hj => ?_
      have hkept : (keptOf op ((q :: ls).take (j + 1))).length =
          (kept op (q.2 - q.1) q.1).length + (keptOf op (ls.take j)).length := by simp [keptOf]
      have := h (j + 1) p hj
      rwa [hkept, ← Nat.add_assoc] at this
    have hkept : keptOf op (q :: ls) = kept op (q.2 - q.1) q.1 ++ keptOf op ls := rfl
    rw [hkept]
    exact filled_append.2 ⟨hfirst, hrest⟩

/-- **Both compactions** of the leaves of a write pass give the survivors, legally -/
theorem compactions_agree (op : ℕ → Pick R P) {n : ℕ} {ls : List (ℕ × ℕ)} (ht : Tiles 0 ls n) {m : Mem R}
    (hin : ∀ p ∈ ls, InPlace op p m) (turn : ℕ → ℕ → Turn) (splits : ℕ) :
    Filled 0 (keptOf op ls) (sweepSegs (segsOf op ls 0) m) ∧ (sweepSegs (segsOf op ls 0) m).faults = m.faults ∧
      Filled 0 (keptOf op ls) (compactFilterRec (segsOf op ls 0) turn splits 0 (segsOf op ls 0).length ⟨m, Mem.fresh⟩).dst ∧
      (compactFilterRec (segsOf op ls 0) turn splits 0 (segsOf op ls 0).length ⟨m, Mem.fresh⟩).src.faults = m.faults ∧
      (compactFilterRec (segsOf op ls 0) turn splits 0 (segsOf op ls 0).length ⟨m, Mem.fresh⟩).dst.faults = 0 := by
  obtain ⟨hw, hf, -⟩ := sweepSegs_spec ht 0 m le_rfl (fun i _ h2 => by omega) hin
  have hready : ∀ j, Ready (segsOf op ls 0) (leafKept op ls) j ⟨m, Mem.fresh⟩ := by
    intro j g hg
    rw [segsOf_getElem?, Option.map_eq_some_iff] at hg
    obtain ⟨p, hp, rfl⟩ := hg
    refine ⟨?_, fun _ _ _ => rfl⟩
    have hkept : leafKept op ls j = kept op (p.2 - p.1) p.1 := by simp [leafKept, hp, keptOf]
    rw [hkept]
    exact (hin p (List.mem_of_getElem? hp)).1
  obtain ⟨hcopied, hsrc, hdst⟩ := compact_spec (apart_segsOf op ht 0) turn splits hready
  refine ⟨hf, hw.legal, filled_leaves op ls 0 fun j p hj => ?_, hsrc, hdst⟩
  have hg : (segsOf op ls 0)[j]? =
      some ⟨p.1, 0 + (keptOf op (ls.take j)).length, (kept op (p.2 - p.1) p.1).length⟩ := by
    rw [segsOf_getElem?, hj, Option.map_some]
  have hkept : leafKept op ls j = kept op (p.2 - p.1) p.1 := by simp [leafKept, hj, keptOf]
  have := hcopied j (List.getElem?_eq_some_iff.1 hg).1 _ hg
  rwa [hkept] at this

/-! ## Write-then-compact -/

/-- a quiet write pass: every leaf in place, and the metas those of the leaves -/
theorem write_quiet {op : ℕ → Pick R P} (turn : ℕ → ℕ → Turn) (depth : ℕ) {n : ℕ} (hq : quiet op n 0 = true) :
    (writeFilterRec op turn depth 0 n 0 Pass.fresh).1 = .ok () ∧
      (∀ p ∈ leafRanges depth 0 n, InPlace op p (writeFilterRec op turn depth 0 n 0 Pass.fresh).2.output) ∧
      (List.range (splitLeafCount n depth)).map (writeFilterRec op turn depth 0 n 0 Pass.fresh).2.metas =
        (leafRanges depth 0 n).map (metaOf op) ∧
      (writeFilterRec op turn depth 0 n 0 Pass.fresh).2.output.faults = 0 := by
  obtain ⟨hyields, hleaves, hw⟩ := write_spec op turn depth n
  have hquiet := (keptOf_tiles op (leafRanges_tiles depth (Nat.zero_le n))).2
  rw [Nat.sub_zero, hq] at hquiet
  have hcount : splitLeafCount n depth = (leafRanges depth 0 n).length := by rw [← splitLeafCount_eq depth 0 n, Nat.sub_zero]
  have hwell : ∀ i p, (leafRanges depth 0 n)[i]? = some p →
      (writeFilterRec op turn depth 0 n 0 Pass.fresh).2.metas i = metaOf op p ∧
        InPlace op p (writeFilterRec op turn depth 0 n 0 Pass.fresh).2.output := by
    intro i p hi
    have hp : quiet op (p.2 - p.1) p.1 = true := List.all_eq_true.1 hquiet p (List.mem_of_getElem? hi)
    rcases hleaves i p hi with ⟨-, hx, hf, hu⟩ | ⟨hnot, -, -⟩
    · exact ⟨hx, hf, hu⟩
    · rw [hp] at hnot
      cases hnot
  refine ⟨hyields.1 hquiet, ?_, ?_, hw.legal⟩
  · intro p hp
    obtain ⟨i, hi⟩ := List.getElem?_of_mem hp
    exact (hwell i p hi).2
  · refine List.ext_getElem? fun i => ?_
    rw [List.getElem?_map, List.getElem?_map, hcount]
    rcases hi : (leafRanges depth 0 n)[i]? with _ | p
    · rw [List.getElem?_eq_none]
      · rfl
      · rw [List.length_range]
        exact List.getElem?_eq_none_iff.1 hi
    · rw [List.getElem?_range (List.getElem?_eq_some_iff.1 hi).1, Option.map_some, Option.map_some, (hwell i p hi).1]

/-- **Write-then-compact.** Without a panic the call returns the survivors, whichever compaction the size selects; with one it
unwinds, and every slot that was written has been dropped. Nothing illegal happens either way. -/
theorem wtc_spec (op : ℕ → Pick R P) (turn turn' : ℕ → ℕ → Turn) (size n depth : ℕ) :
    (fusedFilterCollectByRefWtc op turn turn' size n depth).2.src.faults = 0 ∧
      (fusedFilterCollectByRefWtc op turn turn' size n depth).2.dst.faults = 0 ∧
      (quiet op n 0 = true → (fusedFilterCollectByRefWtc op turn turn' size n depth).1 = .ok (some (kept op n 0))) ∧
      (quiet op n 0 = false → (∃ p, (fusedFilterCollectByRefWtc op turn turn' size n depth).1 = .error p) ∧
        ∀ i, (fusedFilterCollectByRefWtc op turn turn' size n depth).2.src.output i = .unwritten ∨
          (fusedFilterCollectByRefWtc op turn turn' size n depth).2.src.output i = .dropped) := by
  obtain ⟨hkept, hquiet⟩ := keptOf_tiles op (leafRanges_tiles depth (Nat.zero_le n))
  rw [Nat.sub_zero] at hkept hquiet
  obtain ⟨⟨res, st⟩, hrun⟩ : ∃ r, r = writeFilterRec op turn depth 0 n 0 (Pass.fresh : Pass R) := ⟨_, rfl⟩
  have hrun' : writeFilterRec op turn depth 0 n 0 ⟨Mem.fresh, fun _ => ⟨0, 0⟩⟩ = (res, st) := hrun.symm
  rcases hq : quiet op n 0 with _ | _
  · obtain ⟨hyields, hleaves, hw⟩ := write_spec op turn depth n
    rw [← hrun] at hyields hleaves hw
    obtain ⟨p, rfl⟩ := hyields.2 (hquiet.trans hq)
    have hcount : splitLeafCount n depth = (leafRanges depth 0 n).length := by rw [← splitLeafCount_eq depth 0 n, Nat.sub_zero]
    obtain ⟨hwalk, hvoid⟩ := dropMetas_spec (leafRanges_tiles depth (Nat.zero_le n)) 0 st.output (by simpa using hleaves)
    rw [← List.range_eq_range', ← hcount] at hwalk hvoid
    have hcall : fusedFilterCollectByRefWtc op turn turn' size n depth =
        (.error p, ⟨dropMetas ((List.range (splitLeafCount n depth)).map st.metas) st.output, Mem.fresh⟩) := by
      simp only [fusedFilterCollectByRefWtc, hrun']
    rw [hcall]
    refine ⟨hwalk.legal.trans hw.legal, rfl, nofun, fun _ => ⟨⟨p, rfl⟩, ?_⟩⟩
    intro i
    rcases Nat.lt_or_ge i n with hlt | hge
    · exact hvoid i (Nat.zero_le i) hlt
    · left
      rw [hwalk.outside i (Or.inr hge), hw.outside i (Or.inr hge)]
      rfl
  · obtain ⟨hres, hin, hmetas, hlegal⟩ := write_quiet turn depth hq
    rw [← hrun] at hres hin hmetas hlegal
    obtain rfl : res = .ok () := hres
    obtain ⟨hf, hsweep, hf', hsrc, hdst⟩ := compactions_agree op (leafRanges_tiles depth (Nat.zero_le n)) hin turn' depth
    rw [hkept] at hf hf'
    have htotal : (segments ((leafRanges depth 0 n).map (metaOf op)) 0).2 = (kept op n 0).length := by
      rw [segments_total, hkept, Nat.zero_add]
    have hcall : fusedFilterCollectByRefWtc op turn turn' size n depth =
        if parallelCompact (kept op n 0).length size then
          (.ok (intoVec (compactFilterRec (segsOf op (leafRanges depth 0 n) 0) turn' depth 0
              (segsOf op (leafRanges depth 0 n) 0).length ⟨st.output, Mem.fresh⟩).dst (kept op n 0).length),
            compactFilterRec (segsOf op (leafRanges depth 0 n) 0) turn' depth 0 (segsOf op (leafRanges depth 0 n) 0).length
              ⟨st.output, Mem.fresh⟩)
        else (.ok (intoVec (sweepSegs (segsOf op (leafRanges depth 0 n) 0) st.output) (kept op n 0).length),
          ⟨sweepSegs (segsOf op (leafRanges depth 0 n) 0) st.output, Mem.fresh⟩) := by
      simp only [fusedFilterCollectByRefWtc, hrun', hmetas, htotal, segsOf]
    rw [hcall]
    split_ifs
    · exact ⟨hsrc.trans hlegal, hdst, fun _ => by rw [intoVec_filled hf'], nofun⟩
    · exact ⟨hsweep.trans hlegal, rfl, fun _ => by rw [intoVec_filled hf], nofun⟩

end YouPipe.Fused
