/-
One graph worker (`graph/fanin.rs`, the worker bodies of `graph/exec.rs`, and their async twins in `graph/async_exec.rs`): the
fair fan-in with its round, spin and anchor, the delivery to the outgoing edges, the loops of sources, map, expand and sink
nodes, and the async-to-sync bridge.

A worker is a state machine whose steps are single channel operations, so everybody else may run between any two of them. A
step reads the rings and the handles the others hold (`View`) and yields the worker's next state with at most one channel
operation (`Effect`). Of the channels: a batch claim or a batch send may move fewer items than it could, even none; a
`try_recv` may report empty while there are senders, although an item is being pushed; a receive reports closed exactly when
every sender is gone and the ring is empty; a send reports closed exactly when every receiver is gone. Closures return, and
there is no cancellation.
-/
import Mathlib.Tactic
import YouPipe.Graph.Plan

namespace YouPipe.Graph

variable {R T : Type}

/-! ## Spawned nodes -/

/-- the worker loop of a spawn step, with the knobs it reads: `cap` is the source's batch size, 0 for one item at a time -/
inductive Body (T : Type) where
  | source (cap : ℕ)
  | node (txBatch : Bool) (f : T → T)
  | expand (txBatch : Bool) (flushCap : ℕ) (f : T → List T)
  | sink
  | bridge

namespace Body

/-- what becomes of one item: the outputs of a node, the item itself elsewhere -/
def outputs : Body T → T → List T
  | .node _ f, x => [f x]
  | .expand _ _ f, x => f x
  | _, x => [x]

def isSource : Body T → Bool
  | .source _ => true
  | _ => false

def isSink : Body T → Bool
  | .sink => true
  | _ => false

end Body

/-- what a spawn step hands to each of its workers -/
structure Spawn (R T : Type) where
  inputs : List R
  outputs : List R
  fanout : Fanout
  body : Body T
  claimCap : ℕ
  /-- the pre-anchor spin is on -/
  spin : Bool

/-- how a body goes with its rings -/
structure Fits (sp : Spawn R T) : Prop where
  source : sp.body.isSource = true → sp.inputs = []
  sink : sp.body.isSink = true ↔ sp.outputs = []
  bridge : sp.body = .bridge → sp.inputs.length ≤ 1

/-! ## A worker's state -/

/-- fair fan-in over the receivers of a node's input edges -/
structure FanIn (R : Type) where
  rxs : List R
  closed : ℕ → Bool
  cursor : ℕ
  openCount : ℕ

namespace FanIn

def new (rxs : List R) : FanIn R := ⟨rxs, fun _ => false, 0, rxs.length⟩

/-- the input `k` places after the cursor -/
def place (f : FanIn R) (k : ℕ) : ℕ := (f.cursor + k) % f.rxs.length

def mark (f : FanIn R) (i : ℕ) : FanIn R :=
  { f with closed := Function.update f.closed i true, openCount := f.openCount - 1 }

/-- rotate past input `i` -/
def rotate (f : FanIn R) (i : ℕ) : FanIn R := { f with cursor := (i + 1) % f.rxs.length }

end FanIn

/-- a delivery under way: the items for every edge, the edge it is at and what that edge still lacks -/
structure Delivery (T : Type) where
  batched : Bool
  batch : List T
  edge : ℕ
  staged : List T
deriving DecidableEq, Repr

/-- where a worker is. In a claim: at a place of the round (about to claim, to ask whether the input is disconnected, or to
try one item), parked on every open input, or parked on the only one. Else at work on the claimed `scratch`, with outputs
`out` still to deliver; pulling the source's iterator; delivering (about to send a batch, or item by item); or returned -/
inductive Pc (T : Type) where
  | round (k : ℕ)
  | probe (k : ℕ)
  | tryItem (k : ℕ)
  | anchor
  | single (k : ℕ)
  | work (scratch out : List T)
  | pull (batch : List T)
  | trySend (d : Delivery T) (scratch out : List T)
  | send (d : Delivery T) (scratch out : List T)
  | done
deriving DecidableEq, Repr

/-- `txs` are the senders of the edges not seen closed; after the return the handles are dropped one by one -/
structure Worker (R T : Type) where
  fanin : FanIn R
  txs : List R
  pc : Pc T

/-- what a step does outside the worker -/
inductive Effect (R T : Type) where
  | silent
  /-- take the `m` oldest items of a ring -/
  | take (r : R) (m : ℕ)
  | push (r : R) (xs : List T)
  /-- the source's iterator yields an item -/
  | yield (x : T)
  /-- the sink consumes an item -/
  | consume (x : T)

/-- the rings and the live handles, as a channel operation sees them -/
structure View (R T : Type) where
  queue : R → List T
  cap : R → ℕ
  sender : R → Bool
  receiver : R → Bool

/-- a receive on the ring reports closed -/
def View.drained (v : View R T) (r : R) : Prop := v.queue r = [] ∧ v.sender r = false

/-- `Vec::swap_remove` -/
def swapRemove (l : List R) (i : ℕ) : List R :=
  match l.getLast? with
  | none => []
  | some z => (l.set i z).dropLast

namespace Worker

variable (sp : Spawn R T) (v : View R T) (w : Worker R T)

def goto (pc : Pc T) : Worker R T := { w with pc := pc }

/-- a claim from input `i` that got `xs` -/
def claimed (i : ℕ) (xs : List T) : Worker R T := { w with fanin := w.fanin.rotate i, pc := .work xs [] }

def markInput (i : ℕ) (pc : Pc T) : Worker R T := { w with fanin := w.fanin.mark i, pc := pc }

/-- where the loop of the body starts -/
def head : Body T → Pc T
  | .source _ => .pull []
  | .bridge => .single 0
  | _ => .round 0

def fresh : Worker R T := ⟨FanIn.new sp.inputs, sp.outputs, head sp.body⟩

/-- parked in a blocking receive -/
def receiving : Prop := w.pc = .anchor ∨ ∃ k, w.pc = .single k

def exited : Prop := w.pc = .done ∧ w.txs = [] ∧ w.fanin.rxs = []

instance [DecidableEq R] [DecidableEq T] : Decidable w.exited := inferInstanceAs (Decidable (_ ∧ _ ∧ _))

/-! ## The fan-in -/

/-- `round`, at the place `k` after the cursor, and what follows an empty one -/
def roundStep (m k : ℕ) : Option (Worker R T × Effect R T) :=
  if w.fanin.rxs.length ≤ k then
    if sp.spin = true ∧ m ≠ 0 then some (w.goto (.round 0), .silent)
    else if w.fanin.openCount = 0 then some (w.goto .done, .silent)
    else if w.fanin.openCount = 1 then some (w.goto (.single 0), .silent)
    else some (w.goto .anchor, .silent)
  else if w.fanin.closed (w.fanin.place k) = true then some (w.goto (.round (k + 1)), .silent)
  else if sp.claimCap = 0 then some (w.goto (.tryItem k), .silent)
  else
    match w.fanin.rxs[w.fanin.place k]? with
    | none => none
    | some r =>
      let n := min m (min sp.claimCap (v.queue r).length)
      if 0 < n then some (w.claimed (w.fanin.place k) ((v.queue r).take n), .take r n)
      else some (w.goto (.probe k), .silent)

/-- an empty batch claim on a connected input counts as empty -/
def probeStep (k : ℕ) : Option (Worker R T × Effect R T) :=
  match w.fanin.rxs[w.fanin.place k]? with
  | none => none
  | some r =>
    if v.sender r = true then some (w.goto (.round (k + 1)), .silent) else some (w.goto (.tryItem k), .silent)

def tryItemStep (m k : ℕ) : Option (Worker R T × Effect R T) :=
  match w.fanin.rxs[w.fanin.place k]? with
  | none => none
  | some r =>
    match v.queue r with
    | [] =>
      if v.sender r = true then some (w.goto (.round (k + 1)), .silent)
      else some (w.markInput (w.fanin.place k) (.round (k + 1)), .silent)
    | x :: _ =>
      if m = 0 ∧ v.sender r = true then some (w.goto (.round (k + 1)), .silent)
      else some (w.claimed (w.fanin.place k) [x], .take r 1)

/-- `anchor`: the select over every open input finds the one `m` places after the cursor ready -/
def anchorStep (m : ℕ) : Option (Worker R T × Effect R T) :=
  if w.fanin.openCount = 0 then some (w.goto .done, .silent)
  else if w.fanin.rxs.length ≤ m ∨ w.fanin.closed (w.fanin.place m) = true then none
  else
    match w.fanin.rxs[w.fanin.place m]? with
    | none => none
    | some r =>
      match v.queue r with
      | [] => if v.sender r = true then none else some (w.markInput (w.fanin.place m) .anchor, .silent)
      | x :: _ => some (w.claimed (w.fanin.place m) [x], .take r 1)

/-- `anchor_single`, at the place `k` after the cursor; also the bridge's receive -/
def singleStep (k : ℕ) : Option (Worker R T × Effect R T) :=
  if w.fanin.rxs.length ≤ k then some (w.goto .done, .silent)
  else if w.fanin.closed (w.fanin.place k) = true then some (w.goto (.single (k + 1)), .silent)
  else
    match w.fanin.rxs[w.fanin.place k]? with
    | none => none
    | some r =>
      match v.queue r with
      | [] =>
        if v.sender r = true then none else some (w.markInput (w.fanin.place k) (.single (k + 1)), .silent)
      | x :: _ => some (w.claimed (w.fanin.place k) [x], .take r 1)

/-! ## The delivery -/

/-- go on with edge `i`, or return from the delivery: `false`, and the worker returns, when every edge has closed -/
def atEdge (batched : Bool) (batch scratch out : List T) (i : ℕ) : Worker R T :=
  if i < w.txs.length then
    if batched = true then w.goto (.trySend ⟨batched, batch, i, batch⟩ scratch out)
    else w.goto (.send ⟨batched, batch, i, batch⟩ scratch out)
  else if w.txs = [] then w.goto .done
  else w.goto (.work scratch out)

/-- `send` of one item, or `send_batch` -/
def deliver (batched : Bool) (batch scratch out : List T) : Worker R T := w.atEdge batched batch scratch out 0

/-- `try_send_batch`: a prefix of the staged items, as far as there is room -/
def trySendStep (m : ℕ) (d : Delivery T) (scratch out : List T) : Option (Worker R T × Effect R T) :=
  match w.txs[d.edge]? with
  | none => none
  | some r =>
    let n := min m (min d.staged.length (v.cap r - (v.queue r).length))
    some (w.goto (.send { d with staged := d.staged.drop n } scratch out), .push r (d.staged.take n))

/-- the blocking sends, one item at a time; an edge that reports closed ends a move producer and is dropped from a
broadcast -/
def sendStep (d : Delivery T) (scratch out : List T) : Option (Worker R T × Effect R T) :=
  match w.txs[d.edge]? with
  | none => none
  | some r =>
    match d.staged with
    | [] => some (w.atEdge d.batched d.batch scratch out (d.edge + 1), .silent)
    | x :: rest =>
      if v.receiver r = false then
        match sp.fanout with
        | .move => some (w.goto .done, .silent)
        | .broadcast =>
          some (atEdge { w with txs := swapRemove w.txs d.edge } d.batched d.batch scratch out d.edge, .silent)
      else if v.cap r ≤ (v.queue r).length then none
      else some (w.goto (.send { d with staged := rest } scratch out), .push r [x])

/-! ## The loops -/

/-- the loop body over the claimed items -/
def workStep (scratch out : List T) : Option (Worker R T × Effect R T) :=
  match sp.body, scratch, out with
  | .source _, _, _ => some (w.goto (head sp.body), .silent)
  | .node true f, x :: rest, _ => some (w.deliver true ((x :: rest).map f) [] [], .silent)
  | .node false f, x :: rest, _ => some (w.deliver false [f x] rest [], .silent)
  | .node _ _, [], _ => some (w.goto (head sp.body), .silent)
  | .expand true flushCap f, x :: rest, out =>
    if flushCap ≤ (out ++ f x).length then some (w.deliver true (out ++ f x) rest [], .silent)
    else some (w.goto (.work rest (out ++ f x)), .silent)
  | .expand true _ _, [], y :: out => some (w.deliver true (y :: out) [] [], .silent)
  | .expand false _ _, scratch, y :: out => some (w.deliver false [y] scratch out, .silent)
  | .expand false _ f, x :: rest, [] => some (w.goto (.work rest (f x)), .silent)
  | .expand _ _ _, [], [] => some (w.goto (head sp.body), .silent)
  | .sink, x :: rest, _ => some (w.goto (.work rest []), .consume x)
  | .sink, [], _ => some (w.goto (head sp.body), .silent)
  | .bridge, x :: rest, _ => some (w.deliver false [x] rest [], .silent)
  | .bridge, [], _ => some (w.goto (head sp.body), .silent)

/-- one call of the source's iterator -/
def pullStep (y : Option T) (batch : List T) : Option (Worker R T × Effect R T) :=
  match sp.body, y with
  | .source 0, some x => some (w.deliver false [x] [] [], .yield x)
  | .source cap, some x =>
    if (batch ++ [x]).length = cap then some (w.deliver true (batch ++ [x]) [] [], .yield x)
    else some (w.goto (.pull (batch ++ [x])), .yield x)
  | .source _, none =>
    if batch = [] then some (w.goto .done, .silent) else some (w.deliver true batch [] [], .silent)
  | _, _ => none

/-- drop the next handle: the senders, then the receivers -/
def dropStep : Option (Worker R T × Effect R T) :=
  match w.txs, w.fanin.rxs with
  | _ :: txs, _ => some ({ w with txs := txs }, .silent)
  | [], _ :: rxs => some ({ w with fanin := { w.fanin with rxs := rxs } }, .silent)
  | [], [] => none

/-- the worker's next step; `m` is what the channels or the spin choose, `y` what the source's iterator returns -/
def next (m : ℕ) (y : Option T) : Option (Worker R T × Effect R T) :=
  match w.pc with
  | .round k => roundStep sp v w m k
  | .probe k => probeStep v w k
  | .tryItem k => tryItemStep v w m k
  | .anchor => anchorStep v w m
  | .single k => singleStep v w k
  | .work scratch out => workStep sp w scratch out
  | .pull batch => pullStep sp w y batch
  | .trySend d scratch out => trySendStep v w m d scratch out
  | .send d scratch out => sendStep sp v w d scratch out
  | .done => dropStep w

end Worker

end YouPipe.Graph
