/-
A streaming topology neither stalls nor runs forever.

Progress. `step_of_open`: an empty output ring that is still open comes with an enabled step, whatever the rest of the topology
holds and whether or not the token has fired. A sender of that ring has room, so it can only wait for input, and then some ring
before it is empty and open in turn; the feeder never waits with room. `step_of_unread`: once nobody reads the output, everybody
who has not returned has a step, or somebody before them has.

Termination. `step_measure`: every step brings the messages closer to the exit. A message weighs what its outputs will weigh at
the next stage, and more the earlier the phase it is in.
-/
import Mathlib.Tactic
import YouPipe.Stream.NetInv

namespace YouPipe.Stream

open YouPipe.Tally

variable {I A B O : Type}

/-! ## Progress -/

/-- some step is enabled -/
def Net.Enabled (net : Net I O) (env : Env) (s : net.St) : Prop := ∃ a s', net.step env s a = some s'

/-- the feeder waits only for room -/
theorem feed_enabled {cfg : FeedCfg} {cancelled receivers : Bool} {s : FeedSt I} (hf : s.feeder ≠ .done)
    (hroom : s.feeder.held ≠ [] → receivers = false ∨ s.ring.length < cfg.cap) :
    ∃ s', feedStep cfg cancelled receivers s 0 = some s' := by
  obtain ⟨f, q⟩ := s
  cases f with
  | stage staged rest =>
    cases rest with
    | nil => exact ⟨_, rfl⟩
    | cons x rest =>
      simp only [feedStep]
      split_ifs <;> exact ⟨_, rfl⟩
  | batch staged rest =>
    cases staged with
    | nil => exact ⟨_, rfl⟩
    | cons x staged => exact ⟨_, rfl⟩
  | items staged rest =>
    cases staged with
    | nil => exact ⟨_, rfl⟩
    | cons x staged =>
      simp only [feedStep]
      split_ifs <;> exact ⟨_, rfl⟩
  | send x staged rest =>
    simp only [feedStep]
    split_ifs with hr hq
    · exact ⟨_, rfl⟩
    · obtain hr' | hq' := hroom (by simp [Feeder.held])
      · exact absurd hr (by simp [hr'])
      · exact absurd hq' hq
    · exact ⟨_, rfl⟩
  | done => exact absurd rfl hf

/-- a worker waits only for input, or for room -/
theorem workerStep_enabled {cfg : LinkCfg} {g : A → List B} {cancelled receivers room ended : Bool} {queue : List (Msg A)}
    {x : Worker A B} (hx : x.isExited = false) (hin : (∃ mapped, x = .idle mapped) → queue ≠ [] ∨ ended = true)
    (hroom : receivers = false ∨ room = true) : ∃ y, x.step cfg g cancelled receivers room ended queue 0 = some y := by
  cases x with
  | idle mapped =>
    simp only [Worker.step]
    split_ifs with hq he
    · exact ⟨_, rfl⟩
    · obtain hq' | he' := hin ⟨mapped, rfl⟩
      · exact absurd (by simpa using hq) hq'
      · exact absurd he' he
    · exact ⟨_, rfl⟩
  | work scratch mapped =>
    cases scratch with
    | nil =>
      simp only [Worker.step]
      split_ifs <;> exact ⟨_, rfl⟩
    | cons y scratch =>
      simp only [Worker.step]
      split_ifs <;> exact ⟨_, rfl⟩
  | flush mapped scratch stop =>
    cases mapped with
    | nil =>
      simp only [Worker.step]
      split_ifs <;> exact ⟨_, rfl⟩
    | cons y mapped =>
      simp only [Worker.step]
      split_ifs with hr hro
      · exact ⟨_, rfl⟩
      · obtain hr' | hro' := hroom
        · exact absurd hr (by simp [hr'])
        · exact absurd hro' hro
      · exact ⟨_, rfl⟩
  | exited => simp [Worker.isExited] at hx

theorem shards_pos (net : Net I O) : 0 < net.shards := by
  cases net with
  | feed cfg => exact Nat.one_pos
  | link prev cfg g => exact cfg.shards.pos

/-- either some ring has a message, or all are closed and empty, or one is empty and open -/
theorem rings_cases (net : Net I O) (s : net.St) :
    (∃ r < net.shards, net.rings s r ≠ []) ∨ net.ended s = true ∨
      ∃ r < net.shards, net.rings s r = [] ∧ net.isOpen s r = true := by
  by_cases hq : ∃ r < net.shards, net.rings s r ≠ []
  · exact .inl hq
  · push Not at hq
    by_cases ho : ∃ r < net.shards, net.isOpen s r = true
    · obtain ⟨r, hr, hopen⟩ := ho
      exact .inr (.inr ⟨r, hr, hq r hr, hopen⟩)
    · simp only [not_exists, not_and, Bool.not_eq_true] at ho
      exact .inr (.inl (ended_iff.2 ⟨closed_iff.2 ho, hq⟩))

theorem alive_of_worker {cfg : LinkCfg} {l : LinkSt A B} {w : ℕ} (hw : w < cfg.workers)
    (hx : (l.workers w).isExited = false) : l.alive cfg = true := by
  rw [← Bool.not_eq_false, alive_eq_false]
  intro h
  exact absurd (h w hw) (by simp [hx])

/-- a live worker with room in its ring can step, or somebody before it can -/
theorem step_of_worker {prev : Net I A} {cfg : LinkCfg} {g : A → List B} {env : Env} (hstart : env.started = true)
    {s : (Net.link prev cfg g).St} {w : ℕ} (hw : w < cfg.workers) (hx : (s.2.workers w).isExited = false)
    (hroom : env.receivers = false ∨ (s.2.rings (w % cfg.shards)).length < cfg.cap)
    (ih : ∀ r < prev.shards, prev.rings s.1 r = [] → prev.isOpen s.1 r = true →
      prev.Enabled ⟨env.cancelled, true, true⟩ s.1) :
    (Net.link prev cfg g).Enabled env s := by
  -- the worker itself, once a ring is chosen from which an idle one can claim
  have hself : ∀ r < prev.shards, ((∃ mapped, s.2.workers w = .idle mapped) →
      prev.rings s.1 r ≠ [] ∨ prev.ended s.1 = true) → (Net.link prev cfg g).Enabled env s := by
    intro r hr hin
    obtain ⟨y, hy⟩ := @workerStep_enabled _ _ cfg g env.cancelled env.receivers
      ((s.2.rings (w % cfg.shards)).length < cfg.cap) (prev.ended s.1) (prev.rings s.1 r) _ hx hin (by simpa using hroom)
    refine ⟨.here w r 0, applyEffect prev cfg s.1 s.2 w r y, ?_⟩
    rw [Net.step, if_pos ⟨hstart, hw, hr⟩, hy]
    rfl
  obtain ⟨r, hr, hq⟩ | he | ⟨r, hr, hq, ho⟩ := rings_cases prev s.1
  · exact hself r hr fun _ => .inl hq
  · exact hself 0 (shards_pos prev) fun _ => .inr he
  · obtain ⟨a, p, hp⟩ := ih r hr hq ho
    refine ⟨.prev a, (p, s.2), ?_⟩
    rw [Net.step, alive_of_worker hw hx, hstart, hp]
    rfl

/-- **an empty open ring is never waited for in vain** -/
theorem step_of_open {net : Net I O} {cancelled : Bool} {s : net.St} {r : ℕ} (hq : net.rings s r = [])
    (ho : net.isOpen s r = true) : net.Enabled ⟨cancelled, true, true⟩ s := by
  induction net generalizing r with
  | feed cfg =>
    have hf : s.feeder ≠ .done := by
      intro hd
      simp [Net.isOpen, hd] at ho
    have hring : s.ring = [] := hq
    obtain ⟨s', hs⟩ := @feed_enabled _ cfg cancelled true s hf fun _ => .inr (by rw [hring]; exact cfg.cap.pos)
    exact ⟨.here 0 0 0, s', hs⟩
  | link prev cfg g ih =>
    simp only [Net.isOpen, List.any_eq_true, List.mem_range, Bool.and_eq_true, beq_iff_eq, Bool.not_eq_true'] at ho
    obtain ⟨w, hw, rfl, hx⟩ := ho
    have hring : s.2.rings (w % cfg.shards) = [] := hq
    exact step_of_worker rfl hw hx (.inr (by rw [hring]; exact cfg.cap.pos)) fun r' _ hq' ho' => ih hq' ho'

/-- **nobody stays behind**: with no reader left, a step is enabled until everybody has returned -/
theorem step_of_unread {net : Net I O} {cancelled : Bool} {s : net.St} (hq : net.quiet s = false) :
    net.Enabled ⟨cancelled, false, true⟩ s := by
  induction net with
  | feed cfg =>
    have hf : s.feeder ≠ .done := by
      intro hd
      simp [Net.quiet, Net.fed, hd] at hq
    obtain ⟨s', hs⟩ := @feed_enabled _ cfg cancelled false s hf fun _ => .inl rfl
    exact ⟨.here 0 0 0, s', hs⟩
  | link prev cfg g ih =>
    cases ha : s.2.alive cfg with
    | true =>
      rw [LinkSt.alive, List.any_eq_true] at ha
      obtain ⟨w, hw, hx⟩ := ha
      exact step_of_worker rfl (List.mem_range.1 hw) (by simpa using hx) (.inl rfl) fun r' _ hq' ho' => step_of_open hq' ho'
    | false =>
      have hp : prev.quiet s.1 = false := by simpa [Net.quiet, ha] using hq
      obtain ⟨a, p, hp⟩ := ih hp
      refine ⟨.prev a, (p, s.2), ?_⟩
      rw [Net.step, ha, hp]
      rfl

/-- the feeder and its ring -/
def Net.source : {O : Type} → (net : Net I O) → net.St → FeedSt I
  | _, .feed _, s => s
  | _, .link prev _ _, s => prev.source s.1

def Net.feedCfg : {O : Type} → Net I O → FeedCfg
  | _, .feed cfg => cfg
  | _, .link prev _ _ => prev.feedCfg

theorem fed_eq_false {net : Net I O} {s : net.St} (h : net.fed s = false) : (net.source s).feeder ≠ .done := by
  induction net with
  | feed cfg =>
    intro hd
    simp [Net.fed, show s.feeder = .done from hd] at h
  | link prev cfg g ih => exact ih h

/-- a feeder whose items all fit into its ring has a step until it returns -/
theorem step_of_source {net : Net I O} {env : Env} {s : net.St} (hf : net.fed s = false)
    (hfit : (net.source s).all.card ≤ net.feedCfg.cap) : net.Enabled env s := by
  induction net generalizing env with
  | feed cfg =>
    have hroom : s.feeder.held ≠ [] → env.receivers = false ∨ s.ring.length < cfg.cap := by
      intro hne
      have hlen := List.length_pos_iff.2 hne
      have hcard : s.feeder.held.length + s.ring.length ≤ cfg.cap := by simpa [Net.source, Net.feedCfg, FeedSt.all] using hfit
      exact .inr (by omega)
    obtain ⟨s', hs⟩ := @feed_enabled _ cfg env.cancelled env.receivers s (fed_eq_false hf) hroom
    exact ⟨.here 0 0 0, s', hs⟩
  | link prev cfg g ih =>
    obtain ⟨a, p, hp⟩ := @ih ⟨env.cancelled, s.2.alive cfg, env.started⟩ s.1 hf hfit
    refine ⟨.prev a, (p, s.2), ?_⟩
    rw [Net.step, hp]
    rfl

theorem take_source_le (net : Net I O) (s : net.St) (r m : ℕ) : (net.source (net.take s r m)).all ≤ (net.source s).all := by
  cases net with
  | feed cfg => exact ((List.drop_sublist m s.ring).append_left s.feeder.held).subperm
  | link prev cfg g => exact le_refl _

/-- the items with the feeder and in its ring only become fewer -/
theorem step_source_le {net : Net I O} {env : Env} {s s' : net.St} {a : Act} (h : net.step env s a = some s') :
    (net.source s').all ≤ (net.source s).all := by
  induction net generalizing env a with
  | feed cfg =>
    cases a with
    | here w r k => exact (feedStep_all h).1
    | prev a => cases h
  | link prev cfg g ih =>
    cases a with
    | here w r k =>
      obtain ⟨-, -, -, x', e, -, rfl⟩ := step_here h
      cases e with
      | silent => exact le_refl _
      | take m => exact take_source_le prev s.1 r m
      | push y => exact le_refl _
    | prev a =>
      obtain ⟨p, hp, rfl⟩ := step_prev h
      exact ih hp

theorem init_source (net : Net I O) (items : List I) : (net.source (net.init items)).all.card = items.length := by
  induction net with
  | feed cfg => simp [Net.source, Net.init, FeedSt.all, Feeder.held, tagged]
  | link prev cfg g ih => exact ih

/-! ## Termination -/

/-- what the messages of a list weigh, each with `c` on top -/
def cost (W : Msg B → ℕ) (c : ℕ) (l : List (Msg B)) : ℕ := (l.map W).sum + c * l.length

@[simp] theorem cost_nil (W : Msg B → ℕ) (c : ℕ) : cost W c [] = 0 := by simp [cost]

@[simp] theorem cost_cons (W : Msg B → ℕ) (c : ℕ) (x : Msg B) (l : List (Msg B)) : cost W c (x :: l) = W x + c + cost W c l := by
  simp only [cost, List.map_cons, List.sum_cons, List.length_cons]
  ring

@[simp] theorem cost_append (W : Msg B → ℕ) (c : ℕ) (l l' : List (Msg B)) : cost W c (l ++ l') = cost W c l + cost W c l' := by
  simp only [cost, List.map_append, List.sum_append, List.length_append]
  ring

theorem cost_add (W : Msg B → ℕ) (c d : ℕ) (l : List (Msg B)) : cost W (c + d) l = cost W c l + d * l.length := by
  simp only [cost]
  ring

theorem cost_take_drop (W : Msg B → ℕ) (c m : ℕ) (l : List (Msg B)) : cost W c (l.drop m) + cost W c (l.take m) = cost W c l := by
  rw [add_comm, ← cost_append, List.take_append_drop]

def Feeder.effort (W : Msg I → ℕ) : Feeder I → ℕ
  | .stage staged rest => cost W 5 staged + cost W 6 rest + 1
  | .batch staged rest => cost W 2 staged + cost W 6 rest + 3
  | .items staged rest => cost W 2 staged + cost W 6 rest + 2
  | .send x staged rest => W x + 1 + cost W 2 staged + cost W 6 rest + 2
  | .done => 0

/-- an input message weighs a little more than its outputs when they are collected -/
def price (g : A → List B) (W : Msg B → ℕ) (x : Msg A) : ℕ := cost W 3 (fan g x) + 2

def Worker.effort (g : A → List B) (W : Msg B → ℕ) : Worker A B → ℕ
  | .idle mapped => cost W 3 mapped + 2
  | .work scratch mapped => cost (price g W) 0 scratch + cost W 3 mapped + 3
  | .flush mapped scratch stop => cost W 1 mapped + cost (price g W) 0 scratch + if stop then 1 else 4
  | .exited => 0

/-- what is left to do, when a message at the output weighs `W` -/
def Net.measure : {O : Type} → (net : Net I O) → (Msg O → ℕ) → net.St → ℕ
  | _, .feed _, W, s => s.feeder.effort W + cost W 0 s.ring
  | _, .link prev cfg g, W, s => prev.measure (fun x => price g W x + 2) s.1 +
      ∑ w ∈ Finset.range cfg.workers, (s.2.workers w).effort g W + ∑ r ∈ Finset.range cfg.shards, cost W 0 (s.2.rings r)

theorem feedStep_effort {cfg : FeedCfg} {cancelled receivers : Bool} {s s' : FeedSt I} {k : ℕ} (W : Msg I → ℕ)
    (h : feedStep cfg cancelled receivers s k = some s') :
    s'.feeder.effort W + cost W 0 s'.ring < s.feeder.effort W + cost W 0 s.ring := by
  obtain ⟨f, q⟩ := s
  cases f with
  | stage staged rest =>
    have hc : cost W 5 staged = cost W 2 staged + 3 * staged.length := cost_add W 2 3 staged
    cases rest with
    | nil =>
      cases h
      cases staged <;> simp_all [Feeder.effort]
    | cons x rest =>
      simp only [feedStep] at h
      split_ifs at h <;> cases h <;> simp only [Feeder.effort, cost_cons, cost_append, cost_nil] <;> omega
  | batch staged rest =>
    cases staged with
    | nil =>
      cases h
      simp [Feeder.effort]
    | cons x staged =>
      simp only [feedStep] at h
      split_ifs at h <;> cases h <;> simp only [Feeder.effort, cost_cons, cost_append, cost_nil] <;> omega
  | items staged rest =>
    cases staged with
    | nil =>
      cases h
      simp [Feeder.effort]
    | cons x staged =>
      simp only [feedStep] at h
      split_ifs at h <;> cases h <;> simp only [Feeder.effort, cost_cons] <;> omega
  | send x staged rest =>
    simp only [feedStep] at h
    split_ifs at h <;> cases h <;> simp only [Feeder.effort, cost_cons, cost_append, cost_nil] <;> omega
  | done => cases h

theorem workerStep_effort {cfg : LinkCfg} {g : A → List B} {cancelled receivers room ended : Bool} {queue : List (Msg A)} {k : ℕ}
    {x x' : Worker A B} {e : Effect B} (W : Msg B → ℕ) (h : x.step cfg g cancelled receivers room ended queue k = some (x', e)) :
    x'.effort g W + cost W 0 e.sent < x.effort g W + cost (fun y => price g W y + 2) 0 (e.taken queue) := by
  have hc : ∀ l : List (Msg B), cost W 3 l = cost W 1 l + 2 * l.length := fun l => cost_add W 1 2 l
  cases x with
  | idle mapped =>
    simp only [Worker.step] at h
    split_ifs at h with hq he <;> cases h
    · simp only [Worker.effort, Effect.sent, Effect.taken, cost_nil, if_true, hc]
      omega
    · -- the claim takes at least one message
      cases queue with
      | nil => simp at hq
      | cons y queue =>
        obtain ⟨m, hm⟩ : ∃ m, cfg.claim k = m + 1 := Nat.exists_eq_add_one.2 (by simp [LinkCfg.claim])
        have hw : ∀ l : List (Msg A), cost (price g W) 0 l ≤ cost (fun y => price g W y + 2) 0 l := by
          intro l
          induction l with
          | nil => simp
          | cons z l ih => simp only [cost_cons]; omega
        have := hw (queue.take m)
        simp only [Worker.effort, Effect.sent, Effect.taken, hm, List.take_succ_cons, cost_cons, cost_nil]
        omega
  | work scratch mapped =>
    cases scratch with
    | nil =>
      simp only [Worker.step] at h
      split_ifs at h with hm <;> cases h
      · simp [Worker.effort, Effect.sent, Effect.taken]
      · have hlen : 0 < mapped.length := by
          rw [List.length_pos_iff]
          intro hnil
          simp [hnil] at hm
        simp only [Worker.effort, Effect.sent, Effect.taken, cost_nil, hc, Bool.false_eq_true, if_false]
        omega
    | cons y scratch =>
      simp only [Worker.step] at h
      split_ifs at h <;> cases h <;>
        simp only [Worker.effort, Effect.sent, Effect.taken, cost_nil, cost_cons, cost_append, price, hc, Bool.false_eq_true,
          List.length_append, if_false, if_true] <;> omega
  | flush mapped scratch stop =>
    cases mapped with
    | nil =>
      simp only [Worker.step] at h
      split_ifs at h with hst <;> cases h <;> simp [Worker.effort, Effect.sent, Effect.taken, hst]
    | cons y mapped =>
      simp only [Worker.step] at h
      split_ifs at h <;> cases h <;> simp only [Worker.effort, Effect.sent, Effect.taken, cost_nil, cost_cons] <;> split_ifs <;>
        omega
  | exited => cases h

theorem take_measure (net : Net I O) (W : Msg O → ℕ) (s : net.St) {r : ℕ} (hr : r < net.shards) (m : ℕ) :
    net.measure W (net.take s r m) + cost W 0 ((net.rings s r).take m) = net.measure W s := by
  cases net with
  | feed cfg =>
    show s.feeder.effort W + cost W 0 (s.ring.drop m) + cost W 0 (s.ring.take m) = s.feeder.effort W + cost W 0 s.ring
    rw [add_assoc, cost_take_drop]
  | link prev cfg g =>
    have hr' : r < (cfg.shards : ℕ) := hr
    have h := sum_map_update hr' (cost W 0) s.2.rings ((s.2.rings r).drop m)
    have h' := cost_take_drop W 0 m (s.2.rings r)
    show _ + _ + (∑ j ∈ Finset.range cfg.shards, cost W 0 (Function.update s.2.rings r ((s.2.rings r).drop m) j)) +
      cost W 0 ((s.2.rings r).take m) = _ + _ + (∑ j ∈ Finset.range cfg.shards, cost W 0 (s.2.rings j))
    rw [add_assoc]
    congr 1
    omega

theorem applyEffect_measure (prev : Net I A) (cfg : LinkCfg) (g : A → List B) (W : Msg B → ℕ) (p : prev.St) (l : LinkSt A B)
    {w r : ℕ} (hw : w < cfg.workers) (hr : r < prev.shards) (x' : Worker A B) (e : Effect B) :
    (Net.link prev cfg g).measure W (applyEffect prev cfg p l w r (x', e)) +
        ((l.workers w).effort g W + cost (fun y => price g W y + 2) 0 (e.taken (prev.rings p r))) =
      (Net.link prev cfg g).measure W (p, l) + (x'.effort g W + cost W 0 e.sent) := by
  have hheld := sum_map_update hw (fun y : Worker A B => y.effort g W) l.workers x'
  have hshard : w % cfg.shards < cfg.shards := Nat.mod_lt _ cfg.shards.pos
  cases e with
  | silent => exact balance (add_zero _) hheld (add_zero _).symm
  | take m => exact balance (take_measure prev _ p hr m) hheld (add_zero _).symm
  | push y =>
    have hp := sum_map_update hshard (cost W 0) l.rings (l.rings (w % cfg.shards) ++ [y])
    rw [cost_append, add_comm (cost W 0 (l.rings (w % cfg.shards))), ← add_assoc] at hp
    exact balance (add_zero _) hheld (Nat.add_right_cancel hp)

/-- **every step uses up some of the work** -/
theorem step_measure {net : Net I O} {env : Env} {s s' : net.St} {a : Act} (W : Msg O → ℕ) (h : net.step env s a = some s') :
    net.measure W s' < net.measure W s := by
  induction net generalizing env a with
  | feed cfg =>
    cases a with
    | here w r k => exact feedStep_effort W h
    | prev a => cases h
  | link prev cfg g ih =>
    cases a with
    | here w r k =>
      obtain ⟨-, hw, hr, x', e, hx, rfl⟩ := step_here h
      have heq := applyEffect_measure prev cfg g W s.1 s.2 hw hr x' e
      have hlt := workerStep_effort W hx
      show _ < (Net.link prev cfg g).measure W (s.1, s.2)
      omega
    | prev a =>
      obtain ⟨p, hp, rfl⟩ := step_prev h
      have hlt := ih (fun x => price g W x + 2) hp
      exact Nat.add_lt_add_right (Nat.add_lt_add_right hlt _) _

end YouPipe.Stream
