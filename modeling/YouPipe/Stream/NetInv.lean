/-
What a streaming topology holds, as a multiset of the output messages it will still yield (`Net.inside`), and how steps change
it. A step never adds to it. While the token has not fired nothing is lost either: a worker has returned only when all its
input rings are closed and empty (`Settled`), so no sender ever finds its receivers gone.
-/
import Mathlib.Tactic
import YouPipe.Core.Tally
import YouPipe.Stream.Net

namespace YouPipe.Stream

open YouPipe.Tally

variable {I A B O : Type}

/-! ## What is held -/

/-- the messages the feeder has not sent yet -/
def Feeder.held : Feeder I → List (Msg I)
  | .stage staged rest => staged ++ rest
  | .batch staged rest => staged ++ rest
  | .items staged rest => staged ++ rest
  | .send x staged rest => x :: staged ++ rest
  | .done => []

/-- the messages of the feeder and of its ring -/
def FeedSt.all (s : FeedSt I) : Multiset (Msg I) := (s.feeder.held ++ s.ring : List (Msg I))

/-- the messages a worker has still to send, those of its claimed inputs included -/
def Worker.held (g : A → List B) : Worker A B → List (Msg B)
  | .idle mapped => mapped
  | .work scratch mapped => mapped ++ scratch.flatMap (fan g)
  | .flush mapped scratch stop => mapped ++ if stop then [] else scratch.flatMap (fan g)
  | .exited => []

/-- the output messages a topology will still yield, those in its output rings included -/
def Net.inside : {O : Type} → (net : Net I O) → net.St → Multiset (Msg O)
  | _, .feed _, s => s.all
  | _, .link prev cfg g, s => (prev.inside s.1).bind (fun x => (fan g x : Multiset _)) +
      ∑ w ∈ Finset.range cfg.workers, ((s.2.workers w).held g : Multiset _) +
      ∑ r ∈ Finset.range cfg.shards, (s.2.rings r : Multiset _)

/-- the output messages of a whole run -/
def Net.total (net : Net I O) (items : List I) : Multiset (Msg O) :=
  ((tagged items).flatMap (fan net.outs) : List (Msg O))

theorem fan_flatMap {C : Type} (f : A → List B) (g : B → List C) (x : Msg A) :
    fan (fun a => (f a).flatMap g) x = (fan f x).flatMap (fan g) := by
  simp only [fan, List.flatMap_map, List.map_flatMap]

theorem init_inside (net : Net I O) (items : List I) : net.inside (net.init items) = net.total items := by
  induction net with
  | feed cfg =>
    simp only [Net.inside, Net.init, Net.total, Net.outs, FeedSt.all, Feeder.held, List.nil_append, List.append_nil]
    rw [show (fan fun x : I => [x]) = fun x => [x] by funext x; simp [fan]]
    simp
  | link prev cfg g ih =>
    simp only [Net.inside, Net.init, Worker.held, Multiset.coe_nil, Finset.sum_const_zero, add_zero, ih, Net.total,
      Multiset.coe_bind, List.flatMap_assoc]
    congr 2
    funext x
    exact (fan_flatMap prev.outs g x).symm

/-! ## Steps of the feeder and of a worker -/

/-- a feeder's step adds nothing, and loses nothing while the token has not fired and there is a receiver -/
theorem feedStep_all {cfg : FeedCfg} {cancelled receivers : Bool} {s s' : FeedSt I} {k : ℕ}
    (h : feedStep cfg cancelled receivers s k = some s') :
    s'.all ≤ s.all ∧ (cancelled = false → receivers = true → s'.all = s.all) := by
  have hdone : ∀ f : Feeder I, (⟨.done, s.ring⟩ : FeedSt I).all ≤ (⟨f, s.ring⟩ : FeedSt I).all := by
    intro f
    exact (List.suffix_append f.held s.ring).sublist.subperm
  have hmove : ∀ (x : Msg I) (f f' : Feeder I), f.held = x :: f'.held →
      (⟨f', s.ring ++ [x]⟩ : FeedSt I).all = (⟨f, s.ring⟩ : FeedSt I).all := by
    intro x f f' hf
    show ((f'.held ++ (s.ring ++ [x]) : List (Msg I)) : Multiset (Msg I)) = (f.held ++ s.ring : List (Msg I))
    rw [hf, Multiset.coe_eq_coe, ← List.append_assoc]
    exact List.perm_append_singleton x _
  have hsame : ∀ f f' : Feeder I, f'.held.Perm f.held → (⟨f', s.ring⟩ : FeedSt I).all = (⟨f, s.ring⟩ : FeedSt I).all := by
    intro f f' hf
    exact Multiset.coe_eq_coe.2 (hf.append_right s.ring)
  have both : ∀ {a b : Multiset (Msg I)}, a = b → a ≤ b ∧ (cancelled = false → receivers = true → a = b) :=
    fun e => ⟨le_of_eq e, fun _ _ => e⟩
  obtain ⟨f, q⟩ := s
  simp only [feedStep] at h
  split at h
  case h_1 staged =>
    cases h
    cases staged with
    | nil => exact both (hsame _ _ (List.Perm.refl _))
    | cons y staged => exact both (hsame _ _ (List.Perm.refl _))
  case h_2 staged x rest =>
    split_ifs at h with h1 h2 h3 h4 <;> cases h
    · exact both (hsame _ _ (List.Perm.refl _))
    · exact ⟨hdone _, fun hc => absurd h3 (by simp [hc])⟩
    · exact both (hsame _ _ (by simp [Feeder.held]))
    · exact ⟨hdone _, fun hc => absurd h4 (by simp [hc])⟩
    · exact both (hsame _ _ List.perm_middle.symm)
  case h_3 rest =>
    cases h
    exact both (hsame _ _ (List.Perm.refl _))
  case h_4 x staged rest =>
    split_ifs at h <;> cases h
    · exact both (hmove x _ _ rfl)
    · exact both (hsame _ _ (List.Perm.refl _))
  case h_5 rest =>
    cases h
    exact both (hsame _ _ (List.Perm.refl _))
  case h_6 x staged rest =>
    split_ifs at h with hc <;> cases h
    · exact ⟨hdone _, fun hc' => absurd hc (by simp [hc'])⟩
    · exact both (hsame _ _ (List.Perm.refl _))
  case h_7 x staged rest =>
    split_ifs at h with hr hroom <;> cases h
    · exact both (hmove x _ _ rfl)
    · exact ⟨hdone _, fun _ hr' => absurd hr' hr⟩
  case h_8 => cases h

/-- what a step sends -/
def Effect.sent : Effect B → List (Msg B)
  | .push x => [x]
  | _ => []

/-- what a step takes from the input ring -/
def Effect.taken (queue : List (Msg A)) : Effect B → List (Msg A)
  | .take m => queue.take m
  | _ => []

/-- a worker's step adds nothing to what it claims, and loses nothing while the token has not fired and there is a receiver -/
theorem workerStep_held {cfg : LinkCfg} {g : A → List B} {cancelled receivers room ended : Bool} {queue : List (Msg A)} {k : ℕ}
    {x x' : Worker A B} {e : Effect B} (h : x.step cfg g cancelled receivers room ended queue k = some (x', e)) :
    (x'.held g : Multiset (Msg B)) + (e.sent : Multiset (Msg B)) ≤
        (x.held g : Multiset (Msg B)) + ((e.taken queue).flatMap (fan g) : List (Msg B)) ∧
      (cancelled = false → receivers = true → (x'.held g : Multiset (Msg B)) + (e.sent : Multiset (Msg B)) =
        (x.held g : Multiset (Msg B)) + ((e.taken queue).flatMap (fan g) : List (Msg B))) := by
  cases x with
  | idle mapped =>
    simp only [Worker.step] at h
    split_ifs at h <;> cases h <;> simp [Worker.held, Effect.sent, Effect.taken]
  | work scratch mapped =>
    cases scratch with
    | nil =>
      simp only [Worker.step] at h
      split_ifs at h <;> cases h <;> simp [Worker.held, Effect.sent, Effect.taken]
    | cons y scratch =>
      simp only [Worker.step] at h
      split_ifs at h with hc hh hf <;> cases h
      · simp [Worker.held, Effect.sent, Effect.taken, hc]
      · simp only [Worker.held, Effect.sent, Effect.taken, List.flatMap_nil, List.append_nil, Multiset.coe_nil, add_zero,
          if_true]
        exact ⟨(List.prefix_append _ _).sublist.subperm, fun hc' => absurd hc (by simp [hc'])⟩
      · simp [Worker.held, Effect.sent, Effect.taken]
      · simp [Worker.held, Effect.sent, Effect.taken]
  | flush mapped scratch stop =>
    cases mapped with
    | nil =>
      simp only [Worker.step] at h
      split_ifs at h with hst <;> cases h
      · simp [Worker.held, Effect.sent, Effect.taken, hst]
      · simp [Worker.held, Effect.sent, Effect.taken, hst]
    | cons y mapped =>
      simp only [Worker.step] at h
      split_ifs at h with hr hroom <;> cases h
      · have hmove : ((Worker.flush mapped scratch stop).held g : Multiset (Msg B)) + ([y] : List (Msg B)) =
            (Worker.flush (y :: mapped) scratch stop).held g := by
          rw [Multiset.coe_add, Multiset.coe_eq_coe]
          exact List.perm_append_singleton y _
        simp only [Effect.sent, Effect.taken, List.flatMap_nil, Multiset.coe_nil, add_zero]
        exact ⟨le_of_eq hmove, fun _ _ => hmove⟩
      · simp only [Worker.held, Effect.sent, Effect.taken, List.flatMap_nil, Multiset.coe_nil, add_zero]
        exact ⟨Multiset.zero_le _, fun _ hr' => absurd hr' hr⟩
  | exited => simp [Worker.step] at h

/-! ## Steps of a topology -/

theorem take_inside (net : Net I O) (s : net.St) {r : ℕ} (hr : r < net.shards) (m : ℕ) :
    net.inside (net.take s r m) + ((net.rings s r).take m : List (Msg O)) = net.inside s := by
  have hsplit : ∀ l : List (Msg O), ((l.drop m : List (Msg O)) : Multiset (Msg O)) + (l.take m : List (Msg O)) = l := by
    intro l
    rw [add_comm, Multiset.coe_add, List.take_append_drop]
  cases net with
  | feed cfg =>
    show ((s.feeder.held ++ s.ring.drop m : List (Msg I)) : Multiset (Msg I)) + (s.ring.take m : List (Msg I)) =
      (s.feeder.held ++ s.ring : List (Msg I))
    rw [← Multiset.coe_add, add_assoc, hsplit, Multiset.coe_add]
  | link prev cfg g =>
    have h := sum_map_update hr (fun l : List (Msg O) => (l : Multiset (Msg O))) s.2.rings ((s.2.rings r).drop m)
    rw [← hsplit (s.2.rings r), add_comm _ (((s.2.rings r).take m : List (Msg O)) : Multiset (Msg O)), ← add_assoc] at h
    have h' := add_right_cancel h
    show _ + _ + (∑ j ∈ Finset.range cfg.shards, _) + _ = _ + _ + (∑ j ∈ Finset.range cfg.shards, _)
    rw [add_assoc _ (∑ j ∈ Finset.range cfg.shards, _)]
    exact congrArg _ h'

/-- three summands, moved by what crosses from one to the next -/
theorem balance {M : Type} [AddCommMonoid M] {p p' c c' q q' t e h h' : M} (hp : p' + t = p) (hc : c' + h = c + h')
    (hq : q' = q + e) : p' + c' + q' + (h + t) = p + c + q + (h' + e) := by
  calc p' + c' + q' + (h + t) = (p' + t) + (c' + h) + q' := by abel
    _ = p + (c + h') + (q + e) := by rw [hp, hc, hq]
    _ = p + c + q + (h' + e) := by abel

/-- a step of worker `w` moves what it holds by what it sends and claims -/
theorem applyEffect_inside (prev : Net I A) (cfg : LinkCfg) (g : A → List B) (p : prev.St) (l : LinkSt A B) {w r : ℕ}
    (hw : w < cfg.workers) (hr : r < prev.shards) (x' : Worker A B) (e : Effect B) :
    (Net.link prev cfg g).inside (applyEffect prev cfg p l w r (x', e)) +
        (((l.workers w).held g : Multiset (Msg B)) + ((e.taken (prev.rings p r)).flatMap (fan g) : List (Msg B))) =
      (Net.link prev cfg g).inside (p, l) + ((x'.held g : Multiset (Msg B)) + (e.sent : Multiset (Msg B))) := by
  have hheld := sum_map_update hw (fun y : Worker A B => (y.held g : Multiset (Msg B))) l.workers x'
  have hshard : w % cfg.shards < cfg.shards := Nat.mod_lt _ cfg.shards.pos
  cases e with
  | silent => exact balance (add_zero _) hheld (add_zero _).symm
  | take m =>
    have ht := congrArg (fun t => t.bind fun x => (fan g x : Multiset (Msg B))) (take_inside prev p hr m)
    simp only [Multiset.add_bind, Multiset.coe_bind] at ht
    exact balance ht hheld (add_zero _).symm
  | push y =>
    have hp := sum_map_update hshard (fun q : List (Msg B) => (q : Multiset (Msg B))) l.rings
      (l.rings (w % cfg.shards) ++ [y])
    rw [← Multiset.coe_add, add_comm (l.rings (w % cfg.shards) : Multiset (Msg B)), ← add_assoc] at hp
    exact balance (add_zero _) hheld (add_right_cancel hp)

theorem applyEffect_workers (prev : Net I A) (cfg : LinkCfg) (p : prev.St) (l : LinkSt A B) (w r : ℕ)
    (x : Worker A B × Effect B) : (applyEffect prev cfg p l w r x).2.workers = Function.update l.workers w x.1 := by
  obtain ⟨x', e⟩ := x
  cases e <;> rfl

/-- a worker's step of the last link, taken apart -/
theorem step_here {prev : Net I A} {cfg : LinkCfg} {g : A → List B} {env : Env} {s s' : (Net.link prev cfg g).St} {w r k : ℕ}
    (h : (Net.link prev cfg g).step env s (.here w r k) = some s') :
    env.started = true ∧ w < cfg.workers ∧ r < prev.shards ∧ ∃ x' e,
      (s.2.workers w).step cfg g env.cancelled env.receivers ((s.2.rings (w % cfg.shards)).length < cfg.cap)
        (prev.ended s.1) (prev.rings s.1 r) k = some (x', e) ∧ s' = applyEffect prev cfg s.1 s.2 w r (x', e) := by
  simp only [Net.step] at h
  split_ifs at h with hg
  obtain ⟨⟨x', e⟩, hx, rfl⟩ := Option.map_eq_some_iff.1 h
  exact ⟨hg.1, hg.2.1, hg.2.2, x', e, hx, rfl⟩

theorem step_prev {prev : Net I A} {cfg : LinkCfg} {g : A → List B} {env : Env} {s s' : (Net.link prev cfg g).St} {a : Act}
    (h : (Net.link prev cfg g).step env s (.prev a) = some s') :
    ∃ p, prev.step ⟨env.cancelled, s.2.alive cfg, env.started⟩ s.1 a = some p ∧ s' = (p, s.2) := by
  obtain ⟨p, hp, rfl⟩ := Option.map_eq_some_iff.1 h
  exact ⟨p, hp, rfl⟩

/-- no step adds a message -/
theorem step_inside_le {net : Net I O} {env : Env} {s s' : net.St} {a : Act} (h : net.step env s a = some s') :
    net.inside s' ≤ net.inside s := by
  induction net generalizing env a with
  | feed cfg =>
    cases a with
    | here w r k => exact (feedStep_all h).1
    | prev a => cases h
  | link prev cfg g ih =>
    cases a with
    | here w r k =>
      obtain ⟨-, hw, hr, x', e, hx, rfl⟩ := step_here h
      have heq := applyEffect_inside prev cfg g s.1 s.2 hw hr x' e
      have hle := add_le_add_right (workerStep_held hx).1 ((Net.link prev cfg g).inside (s.1, s.2))
      rw [← heq] at hle
      exact le_of_add_le_add_right hle
    | prev a =>
      obtain ⟨p, hp, rfl⟩ := step_prev h
      obtain ⟨t, ht⟩ := Multiset.le_iff_exists_add.1 (ih hp)
      simp only [Net.inside, ht, Multiset.add_bind]
      exact add_le_add_left (add_le_add_left (Multiset.le_add_right _ _) _) _

/-! ## While the token has not fired -/

/-- nobody is left to send to the output rings -/
def Net.closed : {O : Type} → (net : Net I O) → net.St → Bool
  | _, .feed cfg, s => (Net.feed cfg).fed s
  | _, .link _ cfg _, s => !s.2.alive cfg

theorem alive_eq_false {cfg : LinkCfg} {l : LinkSt A B} :
    l.alive cfg = false ↔ ∀ w < (cfg.workers : ℕ), (l.workers w).isExited = true := by
  simp [LinkSt.alive]

theorem isExited_iff {x : Worker A B} : x.isExited = true ↔ x = .exited := by
  cases x <;> simp [Worker.isExited]

theorem closed_iff {net : Net I O} {s : net.St} : net.closed s = true ↔ ∀ r < net.shards, net.isOpen s r = false := by
  cases net with
  | feed cfg =>
    obtain ⟨f, q⟩ := s
    cases f <;> simp [Net.closed, Net.fed, Net.isOpen, Net.shards]
  | link prev cfg g =>
    rw [Net.closed, Bool.not_eq_true', alive_eq_false]
    simp only [Net.isOpen, Net.shards, List.any_eq_false, List.mem_range, Bool.and_eq_true, beq_iff_eq, Bool.not_eq_true',
      not_and, Bool.not_eq_false]
    constructor
    · intro h r _ w hw _
      exact h w hw
    · intro h w hw
      exact h (w % cfg.shards) (Nat.mod_lt _ cfg.shards.pos) w hw rfl

theorem ended_iff {net : Net I O} {s : net.St} :
    net.ended s = true ↔ net.closed s = true ∧ ∀ r < net.shards, net.rings s r = [] := by
  simp only [closed_iff, Net.ended, List.all_eq_true, List.mem_range, Bool.and_eq_true, List.isEmpty_iff, Bool.not_eq_true']
  exact ⟨fun h => ⟨fun r hr => (h r hr).2, fun r hr => (h r hr).1⟩, fun h r hr => ⟨h.2 r hr, h.1 r hr⟩⟩

/-- the worker has left its loop -/
def Worker.leaving : Worker A B → Bool
  | .exited => true
  | .flush _ _ stop => stop
  | _ => false

/-- a worker has left its loop only when its input is closed and empty -/
def Net.Settled : {O : Type} → (net : Net I O) → net.St → Prop
  | _, .feed _, _ => True
  | _, .link prev cfg _, s =>
    prev.Settled s.1 ∧ ∀ w < (cfg.workers : ℕ), (s.2.workers w).leaving = true → prev.ended s.1 = true

theorem init_settled (net : Net I O) (items : List I) : net.Settled (net.init items) := by
  induction net with
  | feed cfg => trivial
  | link prev cfg g ih => exact ⟨ih, fun w _ hl => by simp [Net.init, Worker.leaving] at hl⟩

theorem take_settled {net : Net I O} {s : net.St} (h : net.Settled s) (r m : ℕ) : net.Settled (net.take s r m) := by
  cases net with
  | feed cfg => trivial
  | link prev cfg g => exact h

theorem Net.Settled.prev_ended {prev : Net I A} {cfg : LinkCfg} {g : A → List B} {s : (Net.link prev cfg g).St}
    (h : (Net.link prev cfg g).Settled s) (hc : (Net.link prev cfg g).closed s = true) : prev.ended s.1 = true := by
  refine h.2 0 cfg.workers.pos ?_
  rw [Net.closed, Bool.not_eq_true'] at hc
  rw [isExited_iff.1 (alive_eq_false.1 hc 0 cfg.workers.pos), Worker.leaving]

/-- a closed topology has come to rest -/
theorem closed_rests {net : Net I O} {s : net.St} (h : net.Settled s) (hc : net.closed s = true) (env : Env) (a : Act) :
    net.step env s a = none := by
  induction net generalizing env a with
  | feed cfg =>
    obtain ⟨f, q⟩ := s
    cases a with
    | here w r k =>
      cases f with
      | done => rfl
      | _ => simp [Net.closed, Net.fed] at hc
    | prev a => rfl
  | link prev cfg g ih =>
    have hp := ended_iff.1 (h.prev_ended hc)
    cases a with
    | here w r k =>
      rw [Option.eq_none_iff_forall_not_mem]
      intro s' hs
      obtain ⟨-, hw, -, x', e, hx, -⟩ := step_here hs
      rw [Net.closed, Bool.not_eq_true'] at hc
      rw [isExited_iff.1 (alive_eq_false.1 hc w hw)] at hx
      cases hx
    | prev a =>
      rw [Net.step, ih h.1 hp.1]
      rfl

/-- nothing is left in a topology whose output is closed and empty -/
theorem inside_of_ended {net : Net I O} {s : net.St} (h : net.Settled s) (he : net.ended s = true) : net.inside s = 0 := by
  obtain ⟨hc, hq⟩ := ended_iff.1 he
  induction net with
  | feed cfg =>
    obtain ⟨f, q⟩ := s
    have hq0 : q = [] := hq 0 Nat.one_pos
    cases f <;> simp_all [Net.closed, Net.fed, Net.inside, FeedSt.all, Feeder.held]
  | @link _ B prev cfg g ih =>
    have hp := h.prev_ended hc
    have hprev := ih h.1 hp (ended_iff.1 hp).1 (ended_iff.1 hp).2
    rw [Net.closed, Bool.not_eq_true', alive_eq_false] at hc
    have hheld : ∑ w ∈ Finset.range cfg.workers, ((s.2.workers w).held g : Multiset (Msg B)) = 0 := by
      refine Finset.sum_eq_zero fun w hw => ?_
      rw [isExited_iff.1 (hc w (Finset.mem_range.1 hw))]
      rfl
    have hrings : ∑ r ∈ Finset.range cfg.shards, (s.2.rings r : Multiset (Msg B)) = 0 := by
      refine Finset.sum_eq_zero fun r hr => ?_
      rw [show s.2.rings r = [] from hq r (Finset.mem_range.1 hr)]
      rfl
    rw [Net.inside, hprev, hheld, hrings]
    rfl

/-- a worker that leaves its loop uncancelled has found its input closed and empty -/
theorem workerStep_leaving {cfg : LinkCfg} {g : A → List B} {room ended : Bool} {queue : List (Msg A)} {k : ℕ}
    {x x' : Worker A B} {e : Effect B} (h : x.step cfg g false true room ended queue k = some (x', e))
    (hl : x'.leaving = true) : ended = true ∨ x.leaving = true := by
  cases x with
  | idle mapped =>
    simp only [Worker.step] at h
    split_ifs at h with hq he <;> cases h
    · exact .inl he
    · cases hl
  | work scratch mapped =>
    cases scratch with
    | nil =>
      simp only [Worker.step] at h
      split_ifs at h <;> cases h <;> cases hl
    | cons y scratch =>
      simp only [Worker.step, Bool.false_eq_true, if_false] at h
      split_ifs at h <;> cases h <;> cases hl
  | flush mapped scratch stop =>
    cases mapped with
    | nil =>
      simp only [Worker.step] at h
      split_ifs at h with hst <;> cases h
      · exact .inr hst
      · cases hl
    | cons y mapped =>
      simp only [Worker.step, if_true] at h
      split_ifs at h
      cases h
      exact .inr hl
  | exited => cases h

theorem workerStep_take {cfg : LinkCfg} {g : A → List B} {cancelled receivers room ended : Bool} {queue : List (Msg A)}
    {k m : ℕ} {x x' : Worker A B} (h : x.step cfg g cancelled receivers room ended queue k = some (x', .take m)) :
    queue ≠ [] ∧ 0 < m ∧ ∃ mapped, x = .idle mapped ∧ x' = .work (queue.take m) mapped := by
  cases x with
  | idle mapped =>
    simp only [Worker.step] at h
    split_ifs at h with hq he <;> cases h
    exact ⟨by simpa using hq, by simp [LinkCfg.claim], mapped, rfl, rfl⟩
  | work scratch mapped =>
    cases scratch with
    | nil =>
      simp only [Worker.step] at h
      split_ifs at h <;> cases h
    | cons y scratch =>
      simp only [Worker.step] at h
      split_ifs at h <;> cases h
  | flush mapped scratch stop =>
    cases mapped with
    | nil =>
      simp only [Worker.step] at h
      split_ifs at h <;> cases h
    | cons y mapped =>
      simp only [Worker.step] at h
      split_ifs at h <;> cases h
  | exited => cases h

/-- **no step loses a message** while the token has not fired and a receiver of the output is alive -/
theorem step_keeps {net : Net I O} {started : Bool} {s s' : net.St} {a : Act} (hj : net.Settled s)
    (h : net.step ⟨false, true, started⟩ s a = some s') : net.Settled s' ∧ net.inside s' = net.inside s := by
  induction net generalizing a with
  | feed cfg =>
    cases a with
    | here w r k => exact ⟨trivial, (feedStep_all h).2 rfl rfl⟩
    | prev a => cases h
  | link prev cfg g ih =>
    cases a with
    | here w r k =>
      obtain ⟨-, hw, hr, x', e, hx, rfl⟩ := step_here h
      have heq := applyEffect_inside prev cfg g s.1 s.2 hw hr x' e
      rw [← (workerStep_held hx).2 rfl rfl] at heq
      refine ⟨⟨?_, ?_⟩, add_right_cancel heq⟩
      · cases e with
        | take m => exact take_settled hj.1 _ _
        | silent => exact hj.1
        | push y => exact hj.1
      · intro v hv hl
        have hleft : prev.ended s.1 = true := by
          by_cases hvw : v = w
          · subst hvw
            rw [applyEffect_workers, Function.update_self] at hl
            obtain he | hl := workerStep_leaving hx hl
            · exact he
            · exact hj.2 v hv hl
          · rw [applyEffect_workers, Function.update_of_ne hvw] at hl
            exact hj.2 v hv hl
        cases e with
        | take m => exact absurd ((ended_iff.1 hleft).2 r hr) (workerStep_take hx).1
        | silent => exact hleft
        | push y => exact hleft
    | prev a =>
      obtain ⟨p, hp, rfl⟩ := step_prev h
      cases ha : s.2.alive cfg with
      | false =>
        have hrest := closed_rests hj (by rw [Net.closed, ha]; rfl) ⟨false, true, started⟩ (.prev a)
        rw [hrest] at h
        cases h
      | true =>
        rw [ha] at hp
        obtain ⟨hset, hin⟩ := ih hj.1 hp
        refine ⟨⟨hset, ?_⟩, ?_⟩
        · intro w hw hl
          have hrest := closed_rests hj.1 (ended_iff.1 (hj.2 w hw hl)).1 ⟨false, true, started⟩ a
          rw [hrest] at hp
          cases hp
        · simp only [Net.inside, hin]

/-! ## Closed rings -/

theorem rings_take (net : Net I O) (s : net.St) {r : ℕ} (hr : r < net.shards) (m : ℕ) {r' : ℕ} (hr' : r' < net.shards) :
    net.rings (net.take s r m) r' = if r' = r then (net.rings s r').drop m else net.rings s r' := by
  cases net with
  | feed cfg =>
    have h : r' = r := by simp only [Net.shards] at hr hr'; omega
    rw [if_pos h]
    rfl
  | link prev cfg g =>
    show Function.update s.2.rings r ((s.2.rings r).drop m) r' = _
    split_ifs with h
    · subst h
      exact Function.update_self ..
    · exact Function.update_of_ne h ..

theorem isOpen_take (net : Net I O) (s : net.St) (r m : ℕ) : net.isOpen (net.take s r m) = net.isOpen s := by
  cases net <;> rfl

/-- nothing happens to a closed ring any more -/
theorem step_closed {net : Net I O} {env : Env} {s s' : net.St} {a : Act} (h : net.step env s a = some s') {r : ℕ}
    (hc : net.isOpen s r = false) : net.isOpen s' r = false ∧ net.rings s' r = net.rings s r := by
  cases net with
  | feed cfg =>
    cases a with
    | here w r' k =>
      have hd : s.feeder = .done := by
        obtain ⟨f, q⟩ := s
        cases f <;> simp_all [Net.isOpen]
      simp [Net.step, feedStep, hd] at h
    | prev a => cases h
  | link prev cfg g =>
    cases a with
    | here w r' k =>
      obtain ⟨-, hw, -, x', e, hx, rfl⟩ := step_here h
      simp only [Net.isOpen, List.any_eq_false, List.mem_range, Bool.and_eq_true, beq_iff_eq, Bool.not_eq_true', not_and,
        Bool.not_eq_false] at hc ⊢
      -- whoever steps has not returned, so it does not send to `r`
      have hne : w % cfg.shards ≠ r := by
        intro hwr
        rw [isExited_iff.1 (hc w hw hwr)] at hx
        cases hx
      refine ⟨fun v hv hvr => ?_, ?_⟩
      · rw [applyEffect_workers, Function.update_of_ne]
        · exact hc v hv hvr
        · rintro rfl
          exact hne hvr
      · cases e with
        | silent => rfl
        | take m => rfl
        | push y => exact Function.update_of_ne (Ne.symm hne) ..
    | prev a =>
      obtain ⟨p, -, rfl⟩ := step_prev h
      exact ⟨hc, rfl⟩

end YouPipe.Stream
