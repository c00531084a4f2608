/-
The fork/join recursion of the fused index cores (`par_tree_rec` in `builder/typed/fused.rs`, `join_on_captured` in
`pool/join.rs`). A range is halved until it is a leaf; the two halves of a node are the A and B sides of a join. B is either
stolen, run elsewhere with its panic captured, or popped back by the joining worker and run inline; the schedule says which,
per node. The two sides work on disjoint ranges, so a node runs A and then B.

A call ends by unwinding with a payload (`.error p`) or by returning `Ok(())` or an error value; what `halt_unwinding` makes of
a call is the same value seen as data. `op` says what the op does on item `i`; the collect leaf is the leaf of an op that
never returns an error.

Results:
- `tree_resolved_iff`: the tree leaves every slot of its range resolved if and only if the schedule is `clean`: no self-popped B
  escapes by unwinding from a node whose A side returned an error.
- `tree_double_clean`: at such a node the sibling guard drops A's range again, although A has cleaned it.
-/
import Mathlib.Tactic
import YouPipe.Fused.Slots

namespace YouPipe.Fused

/-! ## Model -/

/-- what the op does on one item -/
inductive Outcome (R E P : Type) where
  | ok (r : R)
  | err (e : E)
  | panics (p : P)
deriving DecidableEq, Repr

/-- `TryFailure`: the error value of the tree -/
inductive Failure (E P : Type) where
  | error (e : E)
  | panic (p : P)
deriving DecidableEq, Repr

/-- how a call of the tree or of a leaf ends: unwinding with a payload, or returning a `Result` -/
abbrev Call (E P : Type) := Except P (Except (Failure E P) Unit)

variable {R E P : Type}

/-- `LeafCleanup::cleanup` after `written` completed iterations of the leaf over `[s, s + n)` -/
def leafCleanup (s n written : ℕ) (m : Mem R) : Mem R :=
  (m.dropRange written s).dropInRange (n - (written + 1)) (s + written + 1)

/-- the leaf loop with `written` iterations done and `rest` to go; the guard's drop on a panic and the explicit cleanup on an
`Err` do the same -/
def leafLoop (op : ℕ → Outcome R E P) (s n : ℕ) : ℕ → ℕ → Mem R → Call E P × Mem R
  | 0, _, m => (.ok (.ok ()), m)
  | rest + 1, written, m =>
    let m := m.read (s + written)
    match op (s + written) with
    | .ok r => leafLoop op s n rest (written + 1) (m.write (s + written) r)
    | .err e => (.ok (.error (.error e)), leafCleanup s n written m)
    | .panics p => (.error p, leafCleanup s n written m)

/-- `par_index_try_leaf` on `[s, e)` -/
def parIndexTryLeaf (op : ℕ → Outcome R E P) (s e : ℕ) (m : Mem R) : Call E P × Mem R :=
  leafLoop op s (e - s) (e - s) 0 m

/-- an infallible op: the value, or the payload of its panic -/
def infallible (op : ℕ → Except P R) (i : ℕ) : Outcome R E P :=
  match op i with
  | .ok r => .ok r
  | .error p => .panics p

/-- `par_index_leaf` on `[s, e)`, as the collect strategy calls it -/
def parIndexLeaf (op : ℕ → Except P R) (s e : ℕ) (m : Mem R) : Call E P × Mem R :=
  parIndexTryLeaf (infallible op) s e m

/-- `join_on_captured`: only a self-popped B is run without a catch, and only when A did not panic -/
def joinOnCaptured (stolen : Bool) (a b : Call E P) : Except P (Call E P × Call E P) :=
  if stolen then .ok (a, b)
  else if a.isOk then
    match b with
    | .ok r => .ok (a, .ok r)
    | .error p => .error p
  else .ok (a, b)

/-- the failure a node returns: a panic outranks an op failure, the left side wins among equals -/
def nodeFailure : Call E P → Call E P → Except (Failure E P) Unit
  | .error p, _ => .error (.panic p)
  | _, .error p => .error (.panic p)
  | .ok (.error f), _ => .error f
  | .ok (.ok ()), .ok (.error f) => .error f
  | .ok (.ok ()), .ok (.ok ()) => .ok ()

/-- `matches!(c, Ok(Ok(())))` -/
def succeeded : Call E P → Bool
  | .ok (.ok ()) => true
  | _ => false

/-- a node of `par_tree_rec` after its two sides have run: the join, the sibling guard and the match on both results -/
def joinNode (stolen : Bool) (s mid e : ℕ) (a b : Call E P) (m : Mem R) : Call E P × Mem R :=
  match joinOnCaptured stolen a b with
  -- the live unwind of a self-popped B passes the sibling guard
  | .error p => (.error p, m.dropRange (mid - s) s)
  | .ok (l, r) =>
    if succeeded l && succeeded r then (.ok (.ok ()), m)
    else
      let m := if succeeded l then m.dropRange (mid - s) s else m
      let m := if succeeded r then m.dropRange (e - mid) mid else m
      (.ok (nodeFailure l r), m)

/-- `par_tree_rec` on `[s, e)` for a leaf, with `Slots::drop_range` as the hook for completed ranges; `stolen s e` says
whether the B side of the node on `[s, e)` is stolen -/
def parTreeRec (leaf : ℕ → ℕ → Mem R → Call E P × Mem R) (stolen : ℕ → ℕ → Bool) :
    ℕ → ℕ → ℕ → Mem R → Call E P × Mem R
  | 0, s, e, m => leaf s e m
  | splits + 1, s, e, m =>
    if e - s ≤ 1 then leaf s e m
    else
      let mid := s + (e - s) / 2
      let (a, m) := parTreeRec leaf stolen splits s mid m
      let (b, m) := parTreeRec leaf stolen splits mid e m
      joinNode (stolen s e) s mid e a b m

/-! ## The condition, on the op's outcomes and the schedule -/

/-- some of the `n` items from `s` on fails -/
def fails (op : ℕ → Outcome R E P) : ℕ → ℕ → Bool
  | 0, _ => false
  | n + 1, s => match op s with
    | .ok _ => fails op n (s + 1)
    | _ => true

/-- the first failing item of the `n` items from `s` on panics -/
def leafPanics (op : ℕ → Outcome R E P) : ℕ → ℕ → Bool
  | 0, _ => false
  | n + 1, s => match op s with
    | .ok _ => leafPanics op n (s + 1)
    | .err _ => false
    | .panics _ => true

/-- a panic leaves the tree on `[s, e)` as a live unwind: a leaf's own panic, or one carried up by self-popped B sides -/
def escapes (op : ℕ → Outcome R E P) (stolen : ℕ → ℕ → Bool) : ℕ → ℕ → ℕ → Bool
  | 0, s, e => leafPanics op (e - s) s
  | splits + 1, s, e =>
    if e - s ≤ 1 then leafPanics op (e - s) s
    else
      let mid := s + (e - s) / 2
      !stolen s e && !escapes op stolen splits s mid && escapes op stolen splits mid e

/-- no node has a self-popped B that escapes while A failed without escaping -/
def clean (op : ℕ → Outcome R E P) (stolen : ℕ → ℕ → Bool) : ℕ → ℕ → ℕ → Bool
  | 0, _, _ => true
  | splits + 1, s, e =>
    if e - s ≤ 1 then true
    else
      let mid := s + (e - s) / 2
      clean op stolen splits s mid && clean op stolen splits mid e &&
        !(!stolen s e && fails op (mid - s) s && !escapes op stolen splits s mid && escapes op stolen splits mid e)

/-! ## What a range holds -/

/-- the range completed: its inputs are consumed and its outputs are live -/
def Done (op : ℕ → Outcome R E P) (s e : ℕ) (m : Mem R) : Prop :=
  ∀ i, s ≤ i → i < e → m.input i ≠ .live ∧ ∃ r, op i = .ok r ∧ m.output i = .live r

/-- the range failed and was cleaned: its inputs are consumed and no output is live -/
def Gone (s e : ℕ) (m : Mem R) : Prop :=
  ∀ i, s ≤ i → i < e → m.input i ≠ .live ∧ (m.output i = .unwritten ∨ m.output i = .dropped)

/-- nothing has happened to the range yet -/
def Fresh (s e : ℕ) (m : Mem R) : Prop := ∀ i, s ≤ i → i < e → m.input i = .live ∧ m.output i = .unwritten

/-- the range after a call that ended in `c` -/
def After (op : ℕ → Outcome R E P) (c : Call E P) (s e : ℕ) (m : Mem R) : Prop :=
  if succeeded c then Done op s e m else Gone s e m

variable {op : ℕ → Outcome R E P} {stolen : ℕ → ℕ → Bool} {s mid e : ℕ} {m m' : Mem R} {a b c : Call E P}

theorem After.frame (h : After op c s e m) {s' e' : ℕ} (ht : Touches s' e' m m') (hd : e ≤ s' ∨ e' ≤ s) :
    After op c s e m' := by
  have hin : ∀ i, s ≤ i → i < e → m'.input i = m.input i := fun i h1 h2 => ht.input i (by omega)
  have hout : ∀ i, s ≤ i → i < e → m'.output i = m.output i := fun i h1 h2 => ht.output i (by omega)
  unfold After at h ⊢
  split_ifs at h ⊢
  · intro i h1 h2
    rw [hin i h1 h2, hout i h1 h2]
    exact h i h1 h2
  · intro i h1 h2
    rw [hin i h1 h2, hout i h1 h2]
    exact h i h1 h2

theorem Fresh.frame (h : Fresh s e m) {s' e' : ℕ} (ht : Touches s' e' m m') (hd : e ≤ s' ∨ e' ≤ s) : Fresh s e m' := by
  intro i h1 h2
  rw [ht.input i (by omega), ht.output i (by omega)]
  exact h i h1 h2

/-- dropping a completed range cleans it -/
theorem Done.drop (h : Done op s e m) : (m.dropRange (e - s) s).faults = m.faults ∧ Gone s e (m.dropRange (e - s) s) := by
  rw [dropRange_live fun i h1 h2 => by obtain ⟨-, r, -, hr⟩ := h i h1 (by omega); exact ⟨r, hr⟩]
  refine ⟨rfl, fun i h1 h2 => ⟨(h i h1 h2).1, Or.inr ?_⟩⟩
  exact if_pos ⟨h1, by omega⟩

theorem Gone.union (h1 : Gone s mid m) (h2 : Gone mid e m) : Gone s e m := by
  intro i hs he
  rcases Nat.lt_or_ge i mid with h | h
  · exact h1 i hs h
  · exact h2 i h he

/-! ## The leaf -/

theorem leafCleanup_touches {n written : ℕ} (hw : written < n) (m : Mem R) :
    Touches s (s + n) m (leafCleanup s n written m) := by
  have h1 := (Touches.dropRange written s m).mono (le_refl s) (show s + written ≤ s + n by omega)
  exact h1.trans ((Touches.dropInRange _ _ _).mono (by omega) (by omega))

theorem leafLoop_touches (op : ℕ → Outcome R E P) (s n rest : ℕ) : ∀ written (m : Mem R), written + rest = n →
    Touches s (s + n) m (leafLoop op s n rest written m).2 := by
  induction rest with
  | zero => intro written m _; exact Touches.refl _ _ m
  | succ rest ih =>
    intro written m hn
    have hread := (Touches.read m (s + written)).mono (show s ≤ s + written by omega)
      (show s + written + 1 ≤ s + n by omega)
    simp only [leafLoop]
    cases hop : op (s + written) with
    | ok r =>
      have hwrite := (Touches.write (m.read (s + written)) (s + written) r).mono (show s ≤ s + written by omega)
        (show s + written + 1 ≤ s + n by omega)
      exact (hread.trans hwrite).trans (ih _ _ (by omega))
    | err x => exact hread.trans (leafCleanup_touches (by omega) _)
    | panics p => exact hread.trans (leafCleanup_touches (by omega) _)

/-- a leaf stopped at item `s + written` is fully cleaned -/
theorem leafCleanup_gone {n written : ℕ} (hw : written < n) (hdone : Done op s (s + written) m)
    (hitem : m.input (s + written) = .moved ∧ m.output (s + written) = .unwritten)
    (hrest : Fresh (s + written + 1) (s + n) m) :
    (leafCleanup s n written m).faults = m.faults ∧ Gone s (s + n) (leafCleanup s n written m) := by
  have hlive : ∀ i, s ≤ i → i < s + written → ∃ r, m.output i = .live r := fun i h1 h2 => by
    obtain ⟨-, r, -, hr⟩ := hdone i h1 h2
    exact ⟨r, hr⟩
  have hin : ∀ i, s + written + 1 ≤ i → i < s + written + 1 + (n - (written + 1)) →
      (m.dropRange written s).input i = .live := fun i h1 h2 => by
    rw [(Touches.dropRange written s m).input i (by omega)]
    exact (hrest i h1 (by omega)).1
  unfold leafCleanup
  rw [dropInRange_live hin, dropRange_live hlive]
  refine ⟨rfl, fun i h1 h2 => ?_⟩
  rcases Nat.lt_trichotomy i (s + written) with h | h | h
  · have hno : ¬ (s + written + 1 ≤ i ∧ i < s + written + 1 + (n - (written + 1))) := by omega
    simp only [hno, if_false, if_pos (⟨h1, h⟩ : s ≤ i ∧ i < s + written)]
    exact ⟨(hdone i h1 h).1, Or.inr trivial⟩
  · subst h
    simp [hitem.1, hitem.2]
  · have hyes : s + written + 1 ≤ i ∧ i < s + written + 1 + (n - (written + 1)) := by omega
    have hno : ¬ (s ≤ i ∧ i < s + written) := by omega
    simp only [if_pos hyes, hno, if_false]
    exact ⟨by simp, Or.inl (hrest i (by omega) h2).2⟩

/-- the leaf loop, from a state in which `written` items are done and the rest is fresh -/
theorem leafLoop_spec (op : ℕ → Outcome R E P) (s n rest : ℕ) :
    ∀ written (m : Mem R), written + rest = n → Done op s (s + written) m →
    Fresh (s + written) (s + n) m →
    (leafLoop op s n rest written m).2.faults = m.faults ∧
      After op (leafLoop op s n rest written m).1 s (s + n) (leafLoop op s n rest written m).2 ∧
      succeeded (leafLoop op s n rest written m).1 = !fails op rest (s + written) ∧
      (leafLoop op s n rest written m).1.isOk = !leafPanics op rest (s + written) := by
  induction rest with
  | zero =>
    intro written m hn hdone _
    obtain rfl : written = n := by omega
    exact ⟨rfl, by simpa [leafLoop, After, succeeded] using hdone, rfl, rfl⟩
  | succ rest ih =>
    intro written m hn hdone hfresh
    have hitem := hfresh (s + written) (le_refl _) (by omega)
    have hread : m.read (s + written) = { m with input := Function.update m.input (s + written) .moved } := by
      simp [Mem.read, hitem.1]
    have hin : ∀ i, i ≠ s + written → (m.read (s + written)).input i = m.input i := fun i hi => by
      rw [hread]; exact Function.update_of_ne hi _ _
    have hdone' : Done op s (s + written) (m.read (s + written)) := fun i h1 h2 => by
      rw [hin i (by omega), hread]; exact hdone i h1 h2
    have hfresh' : Fresh (s + written + 1) (s + n) (m.read (s + written)) := fun i h1 h2 => by
      rw [hin i (by omega), hread]; exact hfresh i (by omega) h2
    have hmoved : (m.read (s + written)).input (s + written) = .moved ∧
        (m.read (s + written)).output (s + written) = .unwritten := by
      rw [hread]; exact ⟨Function.update_self _ _ _, hitem.2⟩
    have hfaults : (m.read (s + written)).faults = m.faults := by rw [hread]
    simp only [leafLoop]
    cases hop : op (s + written) with
    | ok r =>
      simp only [fails, leafPanics, hop]
      have hwrite : (m.read (s + written)).write (s + written) r = { m.read (s + written) with
          output := Function.update (m.read (s + written)).output (s + written) (.live r) } := by
        simp [Mem.write, hmoved.2]
      have hout : ∀ i, i ≠ s + written → ((m.read (s + written)).write (s + written) r).output i =
          (m.read (s + written)).output i := fun i hi => by rw [hwrite]; exact Function.update_of_ne hi _ _
      have hinp : ((m.read (s + written)).write (s + written) r).input = (m.read (s + written)).input := by rw [hwrite]
      have hnext := ih (written + 1) ((m.read (s + written)).write (s + written) r) (by omega) ?_ ?_
      · rw [hwrite] at hnext ⊢
        rw [← hfaults]
        exact hnext
      · intro i h1 h2
        rw [hinp]
        rcases Nat.lt_or_ge i (s + written) with h | h
        · rw [hout i (by omega)]; exact hdone' i h1 h
        · obtain rfl : i = s + written := by omega
          refine ⟨by rw [hmoved.1]; simp, r, hop, ?_⟩
          rw [hwrite]; exact Function.update_self _ _ _
      · intro i h1 h2
        rw [hinp, hout i (by omega)]
        exact hfresh' i h1 h2
    | err x =>
      obtain ⟨h1, h2⟩ := leafCleanup_gone (by omega) hdone' hmoved hfresh'
      exact ⟨h1.trans hfaults, by simpa [After, succeeded] using h2, by simp [succeeded, fails, hop],
        by simp [Except.isOk, Except.toBool, leafPanics, hop]⟩
    | panics p =>
      obtain ⟨h1, h2⟩ := leafCleanup_gone (by omega) hdone' hmoved hfresh'
      exact ⟨h1.trans hfaults, by simpa [After, succeeded] using h2, by simp [succeeded, fails, hop],
        by simp [Except.isOk, Except.toBool, leafPanics, hop]⟩

/-! ## A node -/

theorem joinOnCaptured_cases (st : Bool) (a b : Call E P) :
    (st = false ∧ a.isOk = true ∧ ∃ p, b = .error p ∧ joinOnCaptured st a b = .error p) ∨
      (¬ (st = false ∧ a.isOk = true ∧ b.isOk = false) ∧ joinOnCaptured st a b = .ok (a, b)) := by
  cases st <;> cases a <;> cases b <;> simp [joinOnCaptured, Except.isOk, Except.toBool]

theorem nodeFailure_failed (h : (succeeded a && succeeded b) = false) :
    succeeded (.ok (nodeFailure a b) : Call E P) = false := by
  rcases a with p | (f | ⟨⟩) <;> rcases b with q | (g | ⟨⟩) <;> simp_all [succeeded, nodeFailure]

theorem joinNode_touches (st : Bool) (hs : s ≤ mid) (he : mid ≤ e) (a b : Call E P) (m : Mem R) :
    Touches s e m (joinNode st s mid e a b m).2 := by
  have hleft : ∀ m : Mem R, Touches s e m (m.dropRange (mid - s) s) := fun m =>
    (Touches.dropRange (mid - s) s m).mono (le_refl s) (by omega)
  have hright : ∀ m : Mem R, Touches s e m (m.dropRange (e - mid) mid) := fun m =>
    (Touches.dropRange (e - mid) mid m).mono hs (by omega)
  unfold joinNode
  rcases joinOnCaptured_cases st a b with ⟨-, -, p, -, hj⟩ | ⟨-, hj⟩
  · rw [hj]; exact hleft m
  · rw [hj]
    dsimp only
    split_ifs
    · exact Touches.refl _ _ m
    · exact (hleft m).trans (hright _)
    · exact hright m
    · exact hleft m
    · exact Touches.refl _ _ m

/-- the node that goes wrong: B escapes while A has returned an error -/
def DoubleCleans (st : Bool) (a b : Call E P) : Prop :=
  st = false ∧ succeeded a = false ∧ a.isOk = true ∧ b.isOk = false

/-- any other node leaves its range resolved -/
theorem joinNode_after {st : Bool} (hs : s ≤ mid) (ha : After op a s mid m) (hb : After op b mid e m)
    (hok : ¬ DoubleCleans st a b) :
    (joinNode st s mid e a b m).2.faults = m.faults ∧
      After op (joinNode st s mid e a b m).1 s e (joinNode st s mid e a b m).2 := by
  unfold joinNode
  rcases joinOnCaptured_cases st a b with ⟨hst, haok, p, rfl, hj⟩ | ⟨-, hj⟩
  · -- the guard: A completed, so its range is droppable
    rw [hj]
    have hsa : succeeded a = true := by
      by_contra hna
      exact hok ⟨hst, by simpa using hna, haok, rfl⟩
    rw [After, if_pos hsa] at ha
    obtain ⟨hf, hg⟩ := ha.drop
    have hb' := hb.frame (Touches.dropRange (mid - s) s m) (by omega)
    exact ⟨hf, hg.union hb'⟩
  · rw [hj]
    dsimp only
    cases hsa : succeeded a with
    | true =>
      rw [After, if_pos hsa] at ha
      cases hsb : succeeded b with
      | true =>
        rw [After, if_pos hsb] at hb
        refine ⟨rfl, fun i h1 h2 => ?_⟩
        rcases Nat.lt_or_ge i mid with h | h
        · exact ha i h1 h
        · exact hb i h h2
      | false =>
        obtain ⟨hf, hg⟩ := ha.drop
        have hb' := hb.frame (Touches.dropRange (mid - s) s m) (by omega)
        rw [After, if_neg (by simp [hsb])] at hb'
        have hnf := nodeFailure_failed (a := a) (b := b) (by simp [hsb])
        exact ⟨hf, by simpa [After, hnf] using hg.union hb'⟩
    | false =>
      have hnf := nodeFailure_failed (a := a) (b := b) (by simp [hsa])
      cases hsb : succeeded b with
      | true =>
        have hb' := hb
        rw [After, if_pos hsb] at hb'
        obtain ⟨hf, hg⟩ := hb'.drop
        have ha' := ha.frame (Touches.dropRange (e - mid) mid m) (by omega)
        rw [After, if_neg (by simp [hsa])] at ha'
        exact ⟨hf, by simpa [After, hnf] using ha'.union hg⟩
      | false =>
        rw [After, if_neg (by simp [hsa])] at ha
        rw [After, if_neg (by simp [hsb])] at hb
        exact ⟨rfl, by simpa [After, hnf] using ha.union hb⟩

/-- the node that goes wrong drops a slot that is not live -/
theorem joinNode_fault {st : Bool} (hs : s < mid) (ha : After op a s mid m) (hbad : DoubleCleans st a b) :
    m.faults < (joinNode st s mid e a b m).2.faults := by
  obtain ⟨hst, hsa, haok, hbok⟩ := hbad
  unfold joinNode
  rcases joinOnCaptured_cases st a b with ⟨-, -, p, -, hj⟩ | ⟨hno, -⟩
  · rw [hj]
    rw [After, if_neg (by simp [hsa])] at ha
    apply dropRange_fault (by omega)
    intro r hr
    rcases (ha s (le_refl s) hs).2 with h | h
    · rw [h] at hr; cases hr
    · rw [h] at hr; cases hr
  · exact absurd ⟨hst, haok, hbok⟩ hno

theorem joinNode_succeeded (st : Bool) (a b : Call E P) (m : Mem R) :
    succeeded (joinNode st s mid e a b m).1 = (succeeded a && succeeded b) := by
  unfold joinNode
  rcases joinOnCaptured_cases st a b with ⟨-, -, p, rfl, hj⟩ | ⟨-, hj⟩
  · rw [hj]; simp [succeeded]
  · rw [hj]
    dsimp only
    cases hab : succeeded a && succeeded b with
    | true => simp [succeeded]
    | false => simpa using nodeFailure_failed hab

theorem joinNode_isOk (st : Bool) (a b : Call E P) (m : Mem R) :
    (joinNode st s mid e a b m).1.isOk = !(!st && a.isOk && !b.isOk) := by
  unfold joinNode
  rcases joinOnCaptured_cases st a b with ⟨rfl, ha, p, rfl, hj⟩ | ⟨hno, hj⟩
  · rw [hj, ha]; rfl
  · rw [hj]
    have hside : (!st && a.isOk && !b.isOk) = false := by
      cases st <;> cases a <;> cases b <;> simp_all [Except.isOk, Except.toBool]
    rw [hside]
    dsimp only
    split_ifs <;> rfl

/-! ## The tree -/

theorem fails_append (op : ℕ → Outcome R E P) (n k s : ℕ) : fails op (n + k) s = (fails op n s || fails op k (s + n)) := by
  induction n generalizing s with
  | zero => simp [fails]
  | succ n ih =>
    rw [show n + 1 + k = n + k + 1 by omega]
    simp only [fails]
    cases op s with
    | ok r => simpa [show s + 1 + n = s + (n + 1) by omega] using ih (s + 1)
    | err x => simp
    | panics p => simp

/-- what a call of the tree on a fresh range does: which slots it touches, how it ends, and that the range is resolved
exactly when no node double-cleans -/
structure TreeSpec (op : ℕ → Outcome R E P) (stolen : ℕ → ℕ → Bool) (splits s e : ℕ) (m : Mem R) (r : Call E P × Mem R) :
    Prop where
  touches : Touches s e m r.2
  success : succeeded r.1 = !fails op (e - s) s
  returns : r.1.isOk = !escapes op stolen splits s e
  resolved : clean op stolen splits s e = true → r.2.faults = m.faults ∧ After op r.1 s e r.2
  faulty : clean op stolen splits s e = false → m.faults < r.2.faults

theorem leaf_spec (op : ℕ → Outcome R E P) (hs : s ≤ e) (hm : Fresh s e m) :
    Touches s e m (parIndexTryLeaf op s e m).2 ∧
      succeeded (parIndexTryLeaf op s e m).1 = !fails op (e - s) s ∧
      (parIndexTryLeaf op s e m).1.isOk = !leafPanics op (e - s) s ∧
      (parIndexTryLeaf op s e m).2.faults = m.faults ∧
      After op (parIndexTryLeaf op s e m).1 s e (parIndexTryLeaf op s e m).2 := by
  have he : s + (e - s) = e := by omega
  have ht := leafLoop_touches op s (e - s) (e - s) 0 m (by omega)
  obtain ⟨h1, h2, h3, h4⟩ := leafLoop_spec op s (e - s) (e - s) 0 m (by omega)
    (fun i h1 h2 => by omega) (by rw [he]; exact hm)
  rw [he] at ht h2
  exact ⟨ht, h3, h4, h1, h2⟩

/-- **The tree on a fresh range**, by induction on the split budget; a node uses the spec of both halves -/
theorem tree_spec (op : ℕ → Outcome R E P) (stolen : ℕ → ℕ → Bool) (splits : ℕ) : ∀ s e (m : Mem R), s ≤ e → Fresh s e m →
    TreeSpec op stolen splits s e m (parTreeRec (parIndexTryLeaf op) stolen splits s e m) := by
  induction splits with
  | zero =>
    intro s e m hs hm
    obtain ⟨h1, h2, h3, h4, h5⟩ := leaf_spec op hs hm
    exact ⟨h1, h2, h3, fun _ => ⟨h4, h5⟩, fun h => by simp [clean] at h⟩
  | succ splits ih =>
    intro s e m hs hm
    by_cases hleaf : e - s ≤ 1
    · obtain ⟨h1, h2, h3, h4, h5⟩ := leaf_spec op hs hm
      constructor
      · simpa [parTreeRec, hleaf] using h1
      · simpa [parTreeRec, hleaf] using h2
      · simpa [parTreeRec, escapes, hleaf] using h3
      · intro _; simpa [parTreeRec, hleaf] using And.intro h4 h5
      · intro h; simp [clean, hleaf] at h
    · obtain ⟨mid, hmid⟩ : ∃ mid, mid = s + (e - s) / 2 := ⟨_, rfl⟩
      have hlo : s < mid := by omega
      have hhi : mid ≤ e := by omega
      have hA := ih s mid m hlo.le (fun i h1 h2 => hm i h1 (by omega))
      obtain ⟨ra, hra⟩ : ∃ ra, ra = parTreeRec (parIndexTryLeaf op) stolen splits s mid m := ⟨_, rfl⟩
      rw [← hra] at hA
      have hmB : Fresh mid e ra.2 := by
        apply Fresh.frame _ hA.touches (Or.inr (le_refl mid))
        intro i h1 h2
        exact hm i (by omega) h2
      have hB := ih mid e ra.2 hhi hmB
      obtain ⟨rb, hrb⟩ : ∃ rb, rb = parTreeRec (parIndexTryLeaf op) stolen splits mid e ra.2 := ⟨_, rfl⟩
      rw [← hrb] at hB
      have hnode : parTreeRec (parIndexTryLeaf op) stolen (splits + 1) s e m =
          joinNode (stolen s e) s mid e ra.1 rb.1 rb.2 := by
        simp only [parTreeRec, hleaf, if_false, ← hmid, ← hra, ← hrb]
      have hclean : clean op stolen (splits + 1) s e = (clean op stolen splits s mid && clean op stolen splits mid e &&
          !(!stolen s e && fails op (mid - s) s && !escapes op stolen splits s mid && escapes op stolen splits mid e)) := by
        simp only [clean, hleaf, if_false, ← hmid]
      have htA := hA.touches.mono (le_refl s) hhi
      have htB := hB.touches.mono hlo.le (le_refl e)
      have htN := joinNode_touches (stolen s e) hlo.le hhi ra.1 rb.1 rb.2
      have hbad : DoubleCleans (stolen s e) ra.1 rb.1 ↔
          (!stolen s e && fails op (mid - s) s && !escapes op stolen splits s mid && escapes op stolen splits mid e) = true := by
        unfold DoubleCleans
        rw [hA.success, hA.returns, hB.returns]
        simp [and_assoc]
      rw [hnode]
      refine ⟨(htA.trans htB).trans htN, ?_, ?_, fun hc => ?_, fun hc => ?_⟩
      · rw [joinNode_succeeded, hA.success, hB.success, show e - s = mid - s + (e - mid) by omega, fails_append,
          show s + (mid - s) = mid by omega]
        simp
      · rw [joinNode_isOk, hA.returns, hB.returns]
        simp only [escapes, hleaf, if_false, ← hmid, Bool.not_not]
      · rw [hclean, Bool.and_eq_true, Bool.and_eq_true] at hc
        obtain ⟨hfA, haA⟩ := hA.resolved hc.1.1
        obtain ⟨hfB, haB⟩ := hB.resolved hc.1.2
        have hok : ¬ DoubleCleans (stolen s e) ra.1 rb.1 := by
          intro h
          rw [hbad.1 h] at hc
          exact absurd hc.2 (by simp)
        obtain ⟨hf, ha⟩ := joinNode_after hlo.le (haA.frame hB.touches (Or.inl (le_refl mid))) haB hok
        exact ⟨hf.trans (hfB.trans hfA), ha⟩
      · -- the first side that faults, or this node when both sides are clean
        cases hcA : clean op stolen splits s mid with
        | false => exact (hA.faulty hcA).trans_le (hB.touches.faults.trans htN.faults)
        | true =>
          cases hcB : clean op stolen splits mid e with
          | false => exact (hA.touches.faults.trans_lt (hB.faulty hcB)).trans_le htN.faults
          | true =>
            have hdc : DoubleCleans (stolen s e) ra.1 rb.1 := by
              rw [hbad]
              simpa [hclean, hcA, hcB] using hc
            have haA := (hA.resolved hcA).2.frame hB.touches (Or.inl (le_refl mid))
            exact (htA.faults.trans htB.faults).trans_lt (joinNode_fault hlo haA hdc)

/-! ## Results -/

/-- the slots of `[s, e)` when a call that ended in `c` has finished: no illegal access, every input consumed; on `Ok` every
output live with the op's value, otherwise every output that was written has been dropped -/
structure Resolved (op : ℕ → Outcome R E P) (s e : ℕ) (r : Call E P × Mem R) : Prop where
  legal : r.2.faults = 0
  input : ∀ i, s ≤ i → i < e → r.2.input i ≠ .live
  ok : r.1 = .ok (.ok ()) → ∀ i, s ≤ i → i < e → ∃ v, op i = .ok v ∧ r.2.output i = .live v
  failed : r.1 ≠ .ok (.ok ()) → ∀ i, s ≤ i → i < e → r.2.output i = .unwritten ∨ r.2.output i = .dropped

theorem succeeded_iff : succeeded c = true ↔ c = .ok (.ok ()) := by
  rcases c with p | (f | ⟨⟩) <;> simp [succeeded]

theorem resolved_of_after {r : Call E P × Mem R} (hf : r.2.faults = 0) (h : After op r.1 s e r.2) : Resolved op s e r := by
  unfold After at h
  refine ⟨hf, fun i h1 h2 => ?_, fun hc i h1 h2 => ?_, fun hc i h1 h2 => ?_⟩
  · split_ifs at h
    · exact (h i h1 h2).1
    · exact (h i h1 h2).1
  · rw [if_pos (succeeded_iff.2 hc)] at h
    exact (h i h1 h2).2
  · rw [if_neg (mt succeeded_iff.1 hc)] at h
    exact (h i h1 h2).2

/-- **Slot resolution of the fork/join tree**, for the try-collect and the collect leaf: for every range, split budget,
outcome of each item and schedule, the finished call leaves the range resolved if and only if at no node a self-popped B
escapes by unwinding while A failed without escaping. -/
theorem tree_resolved_iff :
    (∀ (op : ℕ → Outcome R E P) (stolen : ℕ → ℕ → Bool) (splits s e : ℕ),
      Resolved op s e (parTreeRec (parIndexTryLeaf op) stolen splits s e Mem.fresh) ↔ clean op stolen splits s e = true) ∧
    ∀ (op : ℕ → Except P R) (stolen : ℕ → ℕ → Bool) (splits s e : ℕ),
      Resolved (infallible op) s e (parTreeRec (parIndexLeaf (E := E) op) stolen splits s e Mem.fresh) ↔
        clean (infallible (E := E) op) stolen splits s e = true := by
  have htry : ∀ (op : ℕ → Outcome R E P) (stolen : ℕ → ℕ → Bool) (splits s e : ℕ),
      Resolved op s e (parTreeRec (parIndexTryLeaf op) stolen splits s e Mem.fresh) ↔
        clean op stolen splits s e = true := by
    intro op stolen splits s e
    rcases le_total s e with hs | hs
    · have hspec := tree_spec op stolen splits s e Mem.fresh hs fun i _ _ => ⟨rfl, rfl⟩
      constructor
      · intro h
        by_contra hc
        have := hspec.faulty (by simpa using hc)
        rw [h.legal] at this
        exact absurd this (Nat.not_lt_zero _)
      · intro hc
        obtain ⟨hf, ha⟩ := hspec.resolved hc
        exact resolved_of_after hf ha
    · -- an empty range: the leaf does nothing
      have hempty : e - s = 0 := by omega
      cases splits with
      | zero =>
        simp only [clean, iff_true, parTreeRec, parIndexTryLeaf, hempty, leafLoop]
        exact ⟨rfl, fun i h1 h2 => by omega, fun _ i h1 h2 => by omega, fun _ i h1 h2 => by omega⟩
      | succ splits =>
        simp only [clean, hempty, Nat.zero_le, if_true, iff_true, parTreeRec, parIndexTryLeaf, leafLoop]
        exact ⟨rfl, fun i h1 h2 => by omega, fun _ i h1 h2 => by omega, fun _ i h1 h2 => by omega⟩
  exact ⟨htry, fun op stolen splits s e => htry (infallible op) stolen splits s e⟩

/-- two items: the first op returns an error, the second panics -/
def errThenPanic : ℕ → Outcome Unit Unit ℕ
  | 0 => .err ()
  | i => .panics i

/-- four items: the first and the last op panic -/
def outerPanics : ℕ → Except ℕ ℕ
  | 0 => .error 0
  | 3 => .error 3
  | i => .ok i

/-- **A double clean.** Try-collect over two items, the first an error and the second a panic, B self-popped: the guard
drops the output slot of item 0, which was never written. Collect over four items whose ends panic, nothing stolen: the
guard of the root drops `[0, 2)`, which the left subtree has cleaned. -/
theorem tree_double_clean :
    ¬ Resolved errThenPanic 0 2 (parTreeRec (parIndexTryLeaf errThenPanic) (fun _ _ => false) 1 0 2 Mem.fresh) ∧
    ¬ Resolved (infallible (E := Unit) outerPanics) 0 4
      (parTreeRec (parIndexLeaf outerPanics) (fun _ _ => false) 2 0 4 Mem.fresh) := by
  constructor
  · intro h
    exact absurd h.legal (by decide)
  · intro h
    exact absurd h.legal (by decide)

end YouPipe.Fused
