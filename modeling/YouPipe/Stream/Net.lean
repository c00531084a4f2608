/-
The running topology of a streaming pipeline (`builder/typed/stream.rs`): a feeder, then one link after the other, each with
its workers and its output rings. `feeder → [link 1] → rings → [link 2] → rings → …`; what reads the last rings is not part
of this module.

Every loop that sits between two channels is the same machine with its own parameters: the stage workers
(`spawn_stage_fanout`, `spawn_expand_stage_fanout`), the fence forwarder (`forward_fenced`), the tasks of an async stage, and
the bridge threads. A worker claims up to a cap of messages, looks at the token before each of them, collects the outputs,
and sends. They differ in when the collected outputs are sent, in whether they are held back across claims, and in what
becomes of them when the token has fired. Messages keep the seq of their input.

A step is one channel operation or one look at the token with the stage call behind it, so everybody else may run between any
two of them. A claim takes any number of the oldest messages up to the cap and waits only on an open empty ring; a send needs
room and fails only when every receiver is gone; a worker that returns drops its handles at once. Polling without success,
spinning and parking change nothing and are no steps.
-/
import Mathlib.Tactic

namespace YouPipe.Stream

/-! ## Parameters -/

/-- a payload with the seq of the input it comes from -/
abbrev Msg (A : Type) := ℕ × A

/-- the feeder's ring and its staging batch, 0 for one item at a time -/
structure FeedCfg where
  cap : ℕ+
  batchCap : ℕ

/-- a link: its workers, its output rings with their capacity, and its loop. `flushCap`: collected outputs are sent as soon as
there are so many, `none` for at the end of a claim only. `hold`: they are kept until then even across claims, and dropped when
the token has fired. -/
structure LinkCfg where
  workers : ℕ+
  shards : ℕ+
  cap : ℕ+
  claimCap : ℕ
  flushCap : Option ℕ
  hold : Bool

/-- a topology from items of type `I` to messages of the index type -/
inductive Net (I : Type) : Type → Type 1 where
  | feed (cfg : FeedCfg) : Net I I
  | link {A B : Type} (prev : Net I A) (cfg : LinkCfg) (g : A → List B) : Net I B

variable {I A B O : Type}

/-! ## The feeder -/

/-- `push_items`: filling the staging batch from `rest`, in `try_send_batch`, at the look before a blocking send, in that
send, or returned -/
inductive Feeder (I : Type) where
  | stage (staged rest : List (Msg I))
  | batch (staged rest : List (Msg I))
  | items (staged rest : List (Msg I))
  | send (x : Msg I) (staged rest : List (Msg I))
  | done

structure FeedSt (I : Type) where
  feeder : Feeder I
  ring : List (Msg I)

/-- the next operation of the feeder; `k = 0` makes a batched send stop short -/
def feedStep (cfg : FeedCfg) (cancelled receivers : Bool) (s : FeedSt I) (k : ℕ) : Option (FeedSt I) :=
  match s.feeder with
  | .stage staged [] => some ⟨if staged.isEmpty then .done else .batch staged [], s.ring⟩
  | .stage staged (x :: rest) =>
    if 0 < cfg.batchCap then
      if staged.length = cfg.batchCap then some ⟨.batch staged (x :: rest), s.ring⟩
      else if cancelled then some ⟨.done, s.ring⟩
      else some ⟨.stage (staged ++ [x]) rest, s.ring⟩
    else if cancelled then some ⟨.done, s.ring⟩
    else some ⟨.send x staged rest, s.ring⟩
  | .batch [] rest => some ⟨.items [] rest, s.ring⟩
  | .batch (x :: staged) rest =>
    if 0 < k ∧ s.ring.length < cfg.cap then some ⟨.batch staged rest, s.ring ++ [x]⟩
    else some ⟨.items (x :: staged) rest, s.ring⟩
  | .items [] rest => some ⟨.stage [] rest, s.ring⟩
  | .items (x :: staged) rest => if cancelled then some ⟨.done, s.ring⟩ else some ⟨.send x staged rest, s.ring⟩
  | .send x staged rest =>
    if receivers then
      if s.ring.length < cfg.cap then some ⟨.items staged rest, s.ring ++ [x]⟩ else none
    else some ⟨.done, s.ring⟩
  | .done => none

/-! ## A worker -/

/-- a worker at its claim, at work on a claimed batch, sending (`stop`: to return afterwards), or returned -/
inductive Worker (A B : Type) where
  | idle (mapped : List (Msg B))
  | work (scratch : List (Msg A)) (mapped : List (Msg B))
  | flush (mapped : List (Msg B)) (scratch : List (Msg A)) (stop : Bool)
  | exited

def Worker.isExited : Worker A B → Bool
  | .exited => true
  | _ => false

/-- the messages an input message becomes -/
def fan (g : A → List B) (x : Msg A) : List (Msg B) := (g x.2).map (Prod.mk x.1)

/-- the collected outputs are to be sent now -/
def LinkCfg.flushDue (cfg : LinkCfg) (mapped : List (Msg B)) : Bool :=
  match cfg.flushCap with
  | none => false
  | some c => c ≤ mapped.length

/-- what a worker's step does to the rings around it -/
inductive Effect (B : Type) where
  | silent
  | take (m : ℕ)
  | push (x : Msg B)

/-- how many messages a claim takes, when some are there: `k` says how many, within the cap -/
def LinkCfg.claim (cfg : LinkCfg) (k : ℕ) : ℕ := max 1 (min k cfg.claimCap)

/-- the next operation of a worker. `queue` is the ring it claims from and `ended` says that all input rings are closed and
empty; `room` is that of its output ring -/
def Worker.step (cfg : LinkCfg) (g : A → List B) (cancelled receivers room ended : Bool) (queue : List (Msg A)) (k : ℕ) :
    Worker A B → Option (Worker A B × Effect B)
  | .idle mapped =>
    if queue.isEmpty then if ended then some (.flush mapped [] true, .silent) else none
    else some (.work (queue.take (cfg.claim k)) mapped, .take (cfg.claim k))
  | .work [] mapped =>
    if cfg.hold || mapped.isEmpty then some (.idle mapped, .silent) else some (.flush mapped [] false, .silent)
  | .work (x :: scratch) mapped =>
    if cancelled then
      if cfg.hold then some (.exited, .silent) else some (.flush mapped [] true, .silent)
    else
      let mapped := mapped ++ fan g x
      if cfg.flushDue mapped then some (.flush mapped scratch false, .silent) else some (.work scratch mapped, .silent)
  | .flush [] scratch stop => if stop then some (.exited, .silent) else some (.work scratch [], .silent)
  | .flush (x :: mapped) scratch stop =>
    if receivers then if room then some (.flush mapped scratch stop, .push x) else none
    else some (.exited, .silent)
  | .exited => none

/-! ## The topology -/

structure LinkSt (A B : Type) where
  workers : ℕ → Worker A B
  rings : ℕ → List (Msg B)

namespace Net

def St : {O : Type} → Net I O → Type
  | _, .feed _ => FeedSt I
  | _, @link _ A B prev _ _ => prev.St × LinkSt A B

def shards : {O : Type} → Net I O → ℕ
  | _, .feed _ => 1
  | _, .link _ cfg _ => cfg.shards

/-- the output rings -/
def rings : {O : Type} → (net : Net I O) → net.St → ℕ → List (Msg O)
  | _, .feed _, s, _ => s.ring
  | _, .link _ _ _, s, r => s.2.rings r

/-- some sender of the output ring `r` is alive; worker `w` sends to ring `w % shards` -/
def isOpen : {O : Type} → (net : Net I O) → net.St → ℕ → Bool
  | _, .feed _, s, _ => match s.feeder with
    | .done => false
    | _ => true
  | _, .link _ cfg _, s, r => (List.range cfg.workers).any fun w => w % cfg.shards == r && !(s.2.workers w).isExited

/-- every output ring is closed and empty -/
def ended (net : Net I O) (s : net.St) : Bool :=
  (List.range net.shards).all fun r => (net.rings s r).isEmpty && !net.isOpen s r

/-- take the `m` oldest messages of the output ring `r` -/
def take : {O : Type} → (net : Net I O) → net.St → ℕ → ℕ → net.St
  | _, .feed _, s, _, m => ⟨s.feeder, s.ring.drop m⟩
  | _, .link _ _ _, s, r, m => (s.1, ⟨s.2.workers, Function.update s.2.rings r ((s.2.rings r).drop m)⟩)

end Net

/-- some worker of the link is alive; the workers hold the receivers of the rings before it -/
def LinkSt.alive (s : LinkSt A B) (cfg : LinkCfg) : Bool := (List.range cfg.workers).any fun w => !(s.workers w).isExited

/-- what a step sees from outside: the token, whether a receiver of the output is alive, whether the workers exist yet -/
structure Env where
  cancelled : Bool
  receivers : Bool
  started : Bool

/-- worker `w` of the last link (or the feeder) makes its next step, with the ring `r` and the bound `k` for a claim; or a
step is made before that link -/
inductive Act where
  | here (w r k : ℕ)
  | prev (a : Act)
deriving DecidableEq, Repr

/-- put worker `w` into its next state and carry out the effect: a claim from ring `r` before the link, or a send -/
def applyEffect (net : Net I A) (cfg : LinkCfg) (p : net.St) (l : LinkSt A B) (w r : ℕ) (x : Worker A B × Effect B) :
    net.St × LinkSt A B :=
  let workers := Function.update l.workers w x.1
  match x.2 with
  | .silent => (p, ⟨workers, l.rings⟩)
  | .take m => (net.take p r m, ⟨workers, l.rings⟩)
  | .push y => (p, ⟨workers, Function.update l.rings (w % cfg.shards) (l.rings (w % cfg.shards) ++ [y])⟩)

def Net.step : {O : Type} → (net : Net I O) → Env → net.St → Act → Option net.St
  | _, .feed cfg, env, s, .here _ _ k => feedStep cfg env.cancelled env.receivers s k
  | _, .feed _, _, _, .prev _ => none
  | _, .link prev cfg g, env, s, .here w r k =>
    if env.started ∧ w < cfg.workers ∧ r < prev.shards then
      ((s.2.workers w).step cfg g env.cancelled env.receivers ((s.2.rings (w % cfg.shards)).length < cfg.cap)
        (prev.ended s.1) (prev.rings s.1 r) k).map (applyEffect prev cfg s.1 s.2 w r)
    else none
  | _, .link prev cfg _, env, s, .prev a =>
    (prev.step ⟨env.cancelled, s.2.alive cfg, env.started⟩ s.1 a).map fun p => (p, s.2)

/-- the items with their indices -/
def tagged (items : List I) : List (Msg I) := items.zipIdx.map Prod.swap

/-- before the run -/
def Net.init : {O : Type} → (net : Net I O) → List I → net.St
  | _, .feed _, items => ⟨.stage [] (tagged items), []⟩
  | _, .link prev _ _, items => (prev.init items, ⟨fun _ => .idle [], fun _ => []⟩)

/-- the messages one input becomes -/
def Net.outs : {O : Type} → Net I O → I → List O
  | _, .feed _, x => [x]
  | _, .link prev _ g, x => (prev.outs x).flatMap g

/-- the feeder has returned -/
def Net.fed : {O : Type} → (net : Net I O) → net.St → Bool
  | _, .feed _, s => match s.feeder with
    | .done => true
    | _ => false
  | _, .link prev _ _, s => prev.fed s.1

/-- everybody has returned -/
def Net.quiet : {O : Type} → (net : Net I O) → net.St → Bool
  | _, .feed cfg, s => (Net.feed cfg).fed s
  | _, .link prev cfg _, s => prev.quiet s.1 && !s.2.alive cfg

end YouPipe.Stream
