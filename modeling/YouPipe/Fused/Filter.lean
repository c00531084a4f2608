/-
The three filter collects over borrowed input (`builder/typed/fused.rs`): the merge tree (`join_fused_collect_by_ref`),
count-then-place (`count_filter_rec`, `place_filter_rec`, `fused_filter_collect_by_ref_ctp`) and write-then-compact
(`write_filter_rec`, `compact_filter_rec`, `fused_filter_collect_by_ref_wtc`). All of them halve the index range; leaves are told
apart by their number, so that the counts, the output bounds and the segments of one pass are those of the next.

The chain is asked item by item and keeps it, skips it or panics. Count-then-place asks twice, and the second answer need not be
the first. The output buffers are the slots of `Fused.Slots`; moving a value out of a slot leaves it uninitialised, and reading a
slot that holds nothing or writing over one that holds something is counted as a fault.

This module is the model; the properties are in `Fused.Place` and `Fused.Compact`.
-/
import Mathlib.Tactic
import YouPipe.Core.ForkJoin
import YouPipe.Core.Halving
import YouPipe.Core.Word
import YouPipe.Fused.Tree
import YouPipe.Fused.Collect
import YouPipe.Fused.Ranking

namespace YouPipe.Fused

open YouPipe.Halving YouPipe.ForkJoin

/-! ## The chain and the joins -/

/-- what the chain does with one item -/
inductive Pick (R P : Type) where
  | keep (r : R)
  | skip
  | panics (p : P)
deriving DecidableEq, Repr

variable {I O R P α : Type}

/-- a chain that does not panic, on the items of a slice -/
def pick (stages : Chain I O) (input : List I) (i : ℕ) : Pick O P :=
  match input[i]? with
  | none => .skip
  | some x =>
    match stages.apply x with
    | some o => .keep o
    | none => .skip

/-- `join_on_captured` on the results of its two sides -/
def captured (stolen : Bool) (a b : Except P α) : Except P (Except P α × Except P α) :=
  if stolen then .ok (a, b)
  else if a.isOk then
    match b with
    | .ok r => .ok (a, .ok r)
    | .error p => .error p
  else .ok (a, b)

/-- `join_on`: what it captured is raised again, the first side's panic before the second's -/
def rejoin (stolen : Bool) (a b : Except P α) : Except P (α × α) :=
  match captured stolen a b with
  | .error p => .error p
  | .ok (a, b) => do
    let l ← a
    let r ← b
    .ok (l, r)

/-- whether B was stolen or popped back does not show -/
theorem rejoin_eq_joinOn (stolen : Bool) (a b : Except P α) : rejoin stolen a b = joinOn a b := by
  rcases stolen with _ | _
  · rcases a with p | l
    · rfl
    · rcases b with q | r
      · rfl
      · rfl
  · rcases a with p | l
    · rfl
    · rcases b with q | r
      · rfl
      · rfl

/-- `split_leaf_count` -/
def splitLeafCount : ℕ → ℕ → ℕ
  | _, 0 => 1
  | len, splits + 1 => if len ≤ 1 then 1 else splitLeafCount (len - len / 2) splits + splitLeafCount (len / 2) splits

/-! ## The merge tree -/

/-- the leaf loop, `n` items from `i` on -/
def collectLoop (op : ℕ → Pick R P) : ℕ → ℕ → List R → Except P (List R)
  | 0, _, out => .ok out
  | n + 1, i, out =>
    match op i with
    | .keep r => collectLoop op n (i + 1) (out ++ [r])
    | .skip => collectLoop op n (i + 1) out
    | .panics p => .error p

def mergeNode (turn : Turn) (_ _ _ : ℕ) (a b : Except P (List R)) (_ : Unit) : Except P (List R) × Unit :=
  match rejoin turn.isStolen a b with
  | .ok (l, r) => (.ok (l ++ r), ())
  | .error p => (.error p, ())

/-- `join_fused_collect_by_ref` -/
def joinFusedCollectByRef (op : ℕ → Pick R P) (turn : ℕ → ℕ → Turn) (splits s e : ℕ) : Except P (List R) :=
  (halve splitLeafCount turn (fun s e _ _ => (collectLoop op (e - s) s [], ())) mergeNode splits s e 0 ()).1

/-! ## Count-then-place -/

/-- the leaf loop of the count pass; the outputs are dropped at once -/
def countLoop (op : ℕ → Pick R P) : ℕ → ℕ → ℕ → Except P ℕ
  | 0, _, c => .ok c
  | n + 1, i, c =>
    match op i with
    | .keep _ => countLoop op n (i + 1) (c + 1)
    | .skip => countLoop op n (i + 1) c
    | .panics p => .error p

def countLeaf (op : ℕ → Pick R P) (s e base : ℕ) (counts : ℕ → ℕ) : Except P ℕ × (ℕ → ℕ) :=
  match countLoop op (e - s) s 0 with
  | .ok c => (.ok c, Function.update counts base c)
  | .error p => (.error p, counts)

def countNode (turn : Turn) (_ _ _ : ℕ) (a b : Except P ℕ) (counts : ℕ → ℕ) : Except P ℕ × (ℕ → ℕ) :=
  match rejoin turn.isStolen a b with
  | .ok (l, r) => (.ok (l + r), counts)
  | .error p => (.error p, counts)

/-- `count_filter_rec` -/
def countFilterRec (op : ℕ → Pick R P) (turn : ℕ → ℕ → Turn) : ℕ → ℕ → ℕ → ℕ → (ℕ → ℕ) → Except P ℕ × (ℕ → ℕ) :=
  halve splitLeafCount turn (countLeaf op) countNode

/-- the scan over the leaf counts: the bounds with the sentinel, and the total -/
def scanCounts : List ℕ → List ℕ → ℕ → List ℕ × ℕ
  | [], bounds, total => (bounds ++ [total], total)
  | c :: counts, bounds, total => scanCounts counts (bounds ++ [total]) (total + c)

/-- what a place pass unwinds with: the chain's panic, or one of its two assertions -/
inductive Raise (P : Type) where
  | stage (p : P)
  | keptMore
  | keptFewer
deriving DecidableEq, Repr

/-- the leaf loop of the place pass into `[off, off + cnt)`; `LeafCleanup` drops the written prefix on the way out -/
def placeLoop (op : ℕ → Pick R P) (off cnt : ℕ) : ℕ → ℕ → ℕ → Mem R → Except (Raise P) Unit × Mem R
  | 0, _, written, m => if written = cnt then (.ok (), m) else (.error .keptFewer, m.dropRange written off)
  | n + 1, i, written, m =>
    match op i with
    | .keep r =>
      if written < cnt then placeLoop op off cnt n (i + 1) (written + 1) (m.write (off + written) r)
      else (.error .keptMore, m.dropRange written off)
    | .skip => placeLoop op off cnt n (i + 1) written m
    | .panics p => (.error (.stage p), m.dropRange written off)

/-- `FilterPlaceCtx`: the bounds of the leaves in the output, with the sentinel, and their counts -/
structure PlaceCtx where
  bounds : List ℕ
  counts : List ℕ

def PlaceCtx.bound (ctx : PlaceCtx) (i : ℕ) : ℕ := ctx.bounds.getD i 0

def PlaceCtx.count (ctx : PlaceCtx) (i : ℕ) : ℕ := ctx.counts.getD i 0

def placeLeaf (op : ℕ → Pick R P) (ctx : PlaceCtx) (s e base : ℕ) (m : Mem R) : Except (Raise P) Unit × Mem R :=
  placeLoop op (ctx.bound base) (ctx.count base) (e - s) s 0 m

/-- `drop_leaf_range` -/
def dropLeafRange (ctx : PlaceCtx) (lo hi : ℕ) (m : Mem R) : Mem R := m.dropRange (ctx.bound hi - ctx.bound lo) (ctx.bound lo)

/-- a node of the place pass after its sides have run: the join, the sibling guard and the match on both results -/
def placeNode (ctx : PlaceCtx) (turn : Turn) (lo mid hi : ℕ) (a b : Except (Raise P) Unit) (m : Mem R) :
    Except (Raise P) Unit × Mem R :=
  match captured turn.isStolen a b with
  -- the live unwind of a popped B passes the sibling guard
  | .error p => (.error p, dropLeafRange ctx lo mid m)
  | .ok (.ok _, .ok _) => (.ok (), m)
  | .ok (.error p, .error _) => (.error p, m)
  | .ok (.error p, .ok _) => (.error p, dropLeafRange ctx mid hi m)
  | .ok (.ok _, .error p) => (.error p, dropLeafRange ctx lo mid m)

/-- `place_filter_rec` -/
def placeFilterRec (op : ℕ → Pick R P) (ctx : PlaceCtx) (turn : ℕ → ℕ → Turn) :
    ℕ → ℕ → ℕ → ℕ → Mem R → Except (Raise P) Unit × Mem R :=
  halve splitLeafCount turn (placeLeaf op ctx) (placeNode ctx)

/-- `fused_filter_collect_by_ref_ctp` on `n` items, with the chain's answers in the count pass and in the place pass; the result
is `none` when a slot of the returned vector holds nothing -/
def fusedFilterCollectByRefCtp (op op' : ℕ → Pick R P) (turn turn' : ℕ → ℕ → Turn) (n depth : ℕ) :
    Except (Raise P) (Option (List R)) × Mem R :=
  let leaves := splitLeafCount n depth
  match countFilterRec op turn depth 0 n 0 (fun _ => 0) with
  | (.error p, _) => (.error (.stage p), Mem.fresh)
  | (.ok _, stored) =>
    let counts := (List.range leaves).map stored
    let scan := scanCounts counts [] 0
    match placeFilterRec op' ⟨scan.1, counts⟩ turn' depth 0 n 0 Mem.fresh with
    | (.error p, m) => (.error p, m)
    | (.ok _, m) => (.ok (intoVec m scan.2), m)

/-! ## Write-then-compact -/

/-- `WtcLeafMeta` -/
structure LeafMeta where
  start : ℕ
  kept : ℕ
deriving DecidableEq, Repr

/-- the leaf loop of the write pass; `WtcLeafGuard` drops the written prefix on the way out -/
def writeLoop (op : ℕ → Pick R P) (out : ℕ) : ℕ → ℕ → ℕ → Mem R → Except P ℕ × Mem R
  | 0, _, written, m => (.ok written, m)
  | n + 1, i, written, m =>
    match op i with
    | .keep r => writeLoop op out n (i + 1) (written + 1) (m.write (out + written) r)
    | .skip => writeLoop op out n (i + 1) written m
    | .panics p => (.error p, m.dropRange written out)

/-- the shared state of the write pass -/
structure Pass (R : Type) where
  output : Mem R
  metas : ℕ → LeafMeta

def writeLeaf (op : ℕ → Pick R P) (s e base : ℕ) (st : Pass R) : Except P Unit × Pass R :=
  match writeLoop op s (e - s) s 0 st.output with
  | (.ok kept, m) => (.ok (), ⟨m, Function.update st.metas base ⟨s, kept⟩⟩)
  | (.error p, m) => (.error p, ⟨m, st.metas⟩)

def writeNode (turn : Turn) (_ _ _ : ℕ) (a b : Except P Unit) (st : Pass R) : Except P Unit × Pass R :=
  match rejoin turn.isStolen a b with
  | .ok _ => (.ok (), st)
  | .error p => (.error p, st)

/-- `write_filter_rec`; `meta.split_at_mut(left_leaves)` gives the halves the metas of their own leaves -/
def writeFilterRec (op : ℕ → Pick R P) (turn : ℕ → ℕ → Turn) : ℕ → ℕ → ℕ → ℕ → Pass R → Except P Unit × Pass R :=
  halve splitLeafCount turn (writeLeaf op) writeNode

/-- the walk over the metas after a panic -/
def dropMetas (metas : List LeafMeta) (m : Mem R) : Mem R := metas.foldl (fun m x => m.dropRange x.kept x.start) m

/-- `WtcSeg` -/
structure Seg where
  src : ℕ
  dst : ℕ
  len : ℕ
deriving DecidableEq, Repr

/-- the segments with their final offsets, and the total -/
def segments : List LeafMeta → ℕ → List Seg × ℕ
  | [], total => ([], total)
  | x :: metas, total =>
    let rest := segments metas (total + x.kept)
    (⟨x.start, total, x.kept⟩ :: rest.1, rest.2)

/-- read a value out of a slot -/
def Mem.take (m : Mem R) (i : ℕ) : Option R × Mem R :=
  match m.output i with
  | .live r => (some r, { m with output := Function.update m.output i .unwritten })
  | _ => (none, { m with faults := m.faults + 1 })

/-- read the `n` slots from `s` on -/
def takeRange : ℕ → ℕ → Mem R → List R × Mem R
  | 0, _, m => ([], m)
  | n + 1, s, m =>
    let x := m.take s
    let rest := takeRange n (s + 1) x.2
    (x.1.toList ++ rest.1, rest.2)

/-- write the slots from `d` on -/
def putRange : ℕ → List R → Mem R → Mem R
  | _, [], m => m
  | d, x :: xs, m => putRange (d + 1) xs (m.write d x)

/-- `ptr::copy` within one buffer, a `memmove` -/
def moveSeg (seg : Seg) (m : Mem R) : Mem R :=
  let xs := takeRange seg.len seg.src m
  putRange seg.dst xs.1 xs.2

/-- one segment of the in-place sweep -/
def sweepSeg (m : Mem R) (seg : Seg) : Mem R := if 0 < seg.len ∧ seg.dst ≠ seg.src then moveSeg seg m else m

/-- the sequential in-place sweep -/
def sweepSegs (segs : List Seg) (m : Mem R) : Mem R := segs.foldl sweepSeg m

/-- the two buffers of the parallel copy -/
structure Buffers (R : Type) where
  src : Mem R
  dst : Mem R

/-- `ptr::copy_nonoverlapping` of one segment between the buffers -/
def copySeg (st : Buffers R) (seg : Seg) : Buffers R :=
  if 0 < seg.len then
    let xs := takeRange seg.len seg.src st.src
    ⟨xs.2, putRange seg.dst xs.1 st.dst⟩
  else st

/-- `compact_filter_rec` -/
def compactFilterRec (segs : List Seg) (turn : ℕ → ℕ → Turn) (splits s e : ℕ) (st : Buffers R) : Buffers R :=
  (halve splitLeafCount turn (fun s e _ st => ((), (slice segs s e).foldl copySeg st)) (fun _ _ _ _ _ _ st => ((), st))
    splits s e 0 st).2

/-- `WTC_PARALLEL_COMPACT_MIN_BYTES` -/
def wtcParallelCompactMinBytes : ℕ := 256 * 2 ^ 10

/-- `total.saturating_mul(size_of::<S::Output>()) >= WTC_PARALLEL_COMPACT_MIN_BYTES` -/
def parallelCompact (total size : ℕ) : Bool := wtcParallelCompactMinBytes ≤ min (total * size) Word.maxVal

/-- `fused_filter_collect_by_ref_wtc` on `n` items with outputs of `size` bytes; the result is `none` when a slot of the returned
vector holds nothing -/
def fusedFilterCollectByRefWtc (op : ℕ → Pick R P) (turn turn' : ℕ → ℕ → Turn) (size n depth : ℕ) :
    Except P (Option (List R)) × Buffers R :=
  let leaves := splitLeafCount n depth
  match writeFilterRec op turn depth 0 n 0 ⟨Mem.fresh, fun _ => ⟨0, 0⟩⟩ with
  | (.error p, st) => (.error p, ⟨dropMetas ((List.range leaves).map st.metas) st.output, Mem.fresh⟩)
  | (.ok _, st) =>
    let segs := segments ((List.range leaves).map st.metas) 0
    if parallelCompact segs.2 size then
      let bufs := compactFilterRec segs.1 turn' depth 0 segs.1.length ⟨st.output, Mem.fresh⟩
      (.ok (intoVec bufs.dst segs.2), bufs)
    else
      let m := sweepSegs segs.1 st.output
      (.ok (intoVec m segs.2), ⟨m, Mem.fresh⟩)

end YouPipe.Fused
