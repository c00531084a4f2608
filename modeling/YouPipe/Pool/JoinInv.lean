/-
The invariant of the pool of `join`s: a job has its memory in one frame and is referred to from at most one place, a queue or the
thread that executes it. Whoever waits for a job finds its latch set or somebody who has it.
-/
import Mathlib.Tactic
import YouPipe.Core.Machine
import YouPipe.Core.Places
import YouPipe.Pool.Join

namespace YouPipe.Join

open YouPipe.Places

variable {P V : Type}

/-! ## Claims -/

/-- where a reference to a job can be: in a queue, or with the thread that executes it -/
inductive Place
  | deque (w : ℕ)
  | injector
  | exec (w : ℕ)
deriving DecidableEq, Repr

def Place.isQueue : Place → Bool
  | .exec _ => false
  | _ => true

namespace Frame

def job : Frame P V → ℕ
  | .runA j _ => j
  | .loop j _ _ => j
  | .pop j _ _ => j
  | .wait j _ _ => j
  | .inlineB j _ _ => j
  | .capturedB j _ _ => j
  | .exec j => j
  | .finish j => j

/-- the frame executes a job, another frame holds its memory -/
def executes : Frame P V → Bool
  | .exec _ => true
  | .finish _ => true
  | _ => false

end Frame

/-- the jobs that the frames execute -/
def execs (st : List (Frame P V)) : List ℕ := (st.filter (·.executes)).map (·.job)

/-- the jobs whose memory is in the frames -/
def owns (st : List (Frame P V)) : List ℕ := (st.filter (!·.executes)).map (·.job)

namespace St

def holds (s : St P V) : Place → List ℕ
  | .deque w => s.deque w
  | .injector => s.injector
  | .exec w => execs (s.worker w).stack

def owners (s : St P V) : Option ℕ → List ℕ
  | none => s.ext
  | some w => owns (s.worker w).stack

end St

/-- the memory of a job, with where it is referred to and whose frame it is in -/
structure JobOk (c : Prog P V) (b : Job P V) (place : Option Place) (owner : Option (Option ℕ)) : Prop where
  gone : owner = none → place = none ∧ b = .gone
  queued : ∀ q, place = some q → q.isQueue = true → b = ⟨some c, none, false, true⟩
  alive : owner ≠ none → b.alive = true
  latched : b.latch = true → place = none ∧ ∃ r, b.result = some r ∧ Evals c r

/-- what a frame knows about its job -/
def FrameOk (c : Prog P V) (b : Job P V) (place : Option Place) : Frame P V → Prop
  | .exec _ => True
  | .finish _ => ∃ r, b.result = some r ∧ Evals c r
  | .inlineB _ _ _ => place = none ∧ b.latch = false
  | .capturedB _ _ _ => place = none ∧ b.latch = false
  | _ => b.latch = true ∨ place ≠ none

/-- the frames below go on with a result of the join of `a` and `b` -/
def After (need : Option (Prog P V) → Prop) (a b : Prog P V) (k : Except P V → Except P V → Prog P V) : Prop :=
  ∃ g, need (some g) ∧ ∀ r, Evals (.join a b k) r → Evals g r

/-- what the top frame is given: a result of a program, or nothing when it goes on by itself -/
def Needs (code : ℕ → Prog P V) : List (Frame P V) → Option (Prog P V) → Prop
  | [], none => True
  | .exec j :: st, some b => b = code j ∧ Needs code st none
  | .finish _ :: st, none => Needs code st none
  | .runA j k :: st, some a => After (Needs code st) a (code j) k
  | .inlineB j x k :: st, some b => b = code j ∧ ∃ a, Evals a (.ok x) ∧ After (Needs code st) a (code j) k
  | .capturedB j p k :: st, some b => b = code j ∧ ∃ a, Evals a (.error p) ∧ After (Needs code st) a (code j) k
  | .loop j ra k :: st, none => ∃ a, Evals a ra ∧ After (Needs code st) a (code j) k
  | .pop j ra k :: st, none => ∃ a, Evals a ra ∧ After (Needs code st) a (code j) k
  | .wait j ra k :: st, none => ∃ a, Evals a ra ∧ After (Needs code st) a (code j) k
  | _, _ => False

def WorkerOk (code : ℕ → Prog P V) : Worker P V → Prop
  | ⟨.run p, st⟩ => ∃ g, Needs code st (some g) ∧ ∀ r, Evals p r → Evals g r
  | ⟨.ret r, st⟩ => ∃ g, Needs code st (some g) ∧ Evals g r
  | ⟨.resume, st⟩ => Needs code st none

/-- a join is younger than everything below its frame -/
def Rising : List (Frame P V) → Prop
  | [] => True
  | f :: st => (f.executes = false → ∀ e ∈ st, e.job < f.job) ∧ Rising st

structure Inv (s : St P V) (place : ℕ → Option Place) (owner : ℕ → Option (Option ℕ)) : Prop where
  placed : Placed s.holds place
  owned : Placed s.owners owner
  bound : ∀ j, s.fresh ≤ j → owner j = none
  jobs : ∀ j, JobOk (s.code j) (s.job j) (place j) (owner j)
  frames : ∀ w, ∀ f ∈ (s.worker w).stack, FrameOk (s.code f.job) (s.job f.job) (place f.job) f
  waiting : ∀ j ∈ s.ext, (s.job j).latch = true ∨ place j ≠ none
  workers : ∀ w, WorkerOk s.code (s.worker w)
  rising : ∀ w, Rising (s.worker w).stack
  answers : ∀ x ∈ s.outcomes, x.1 < s.fresh ∧ Evals (s.code x.1) x.2
  sound : s.fault = false

section Invariant

variable {s s' : St P V} {place : ℕ → Option Place} {owner : ℕ → Option (Option ℕ)} {n cap w j : ℕ} {busy : Bool}

theorem init_inv [Inhabited V] : Inv (init : St P V) (fun _ => none) (fun _ => none) where
  placed := ⟨fun q => by cases q <;> exact List.nodup_nil, fun q j => by cases q <;> simp [St.holds, init, execs]⟩
  owned := ⟨fun q => by cases q <;> exact List.nodup_nil, fun q j => by cases q <;> simp [St.owners, init, owns]⟩
  bound _ _ := rfl
  jobs _ := ⟨fun _ => ⟨rfl, rfl⟩, (fun _ hq _ => by cases hq), fun h => absurd rfl h, (fun h => by cases h)⟩
  frames w f hf := by cases hf
  waiting j hj := by cases hj
  workers w := trivial
  rising w := trivial
  answers x hx := by cases hx
  sound := rfl

theorem mem_execs {st : List (Frame P V)} {f : Frame P V} (hf : f ∈ st) (he : f.executes = true) : f.job ∈ execs st :=
  List.mem_map_of_mem (List.mem_filter.2 ⟨hf, he⟩)

theorem mem_owns {st : List (Frame P V)} {f : Frame P V} (hf : f ∈ st) (he : f.executes = false) : f.job ∈ owns st :=
  List.mem_map_of_mem (List.mem_filter.2 ⟨hf, by rw [he]; rfl⟩)

theorem execs_cons (f : Frame P V) (st : List (Frame P V)) : execs (f :: st) = if f.executes then f.job :: execs st else execs st := by
  unfold execs
  rw [List.filter_cons]
  split_ifs <;> rfl

theorem owns_cons (f : Frame P V) (st : List (Frame P V)) : owns (f :: st) = if f.executes then owns st else f.job :: owns st := by
  unfold owns
  rw [List.filter_cons]
  cases f.executes <;> rfl

theorem setWorker_self (s : St P V) (w : ℕ) (t : Worker P V) : (s.setWorker w t).worker w = t := Function.update_self _ _ _

theorem setWorker_other (s : St P V) {w u : ℕ} (h : u ≠ w) (t : Worker P V) : (s.setWorker w t).worker u = s.worker u :=
  Function.update_of_ne h _ _

theorem holds_setWorker (s : St P V) (w : ℕ) (t : Worker P V) (q : Place) :
    (s.setWorker w t).holds q = if q = .exec w then execs t.stack else s.holds q := by
  cases q with
  | deque u => rfl
  | injector => rfl
  | exec u =>
    by_cases hu : u = w
    · rw [hu, if_pos rfl, St.holds, setWorker_self]
    · rw [if_neg fun heq => hu (Place.exec.inj heq), St.holds, setWorker_other s hu]
      rfl

theorem owners_setWorker (s : St P V) (w : ℕ) (t : Worker P V) (o : Option ℕ) :
    (s.setWorker w t).owners o = if o = some w then owns t.stack else s.owners o := by
  cases o with
  | none => rfl
  | some u =>
    by_cases hu : u = w
    · rw [hu, if_pos rfl, St.owners, setWorker_self]
    · rw [if_neg fun heq => hu (Option.some.inj heq), St.owners, setWorker_other s hu]
      rfl

theorem holds_setJob (s : St P V) (j : ℕ) (b : Job P V) (q : Place) : (s.setJob j b).holds q = s.holds q := by
  cases q <;> rfl

theorem owners_setJob (s : St P V) (j : ℕ) (b : Job P V) (o : Option ℕ) : (s.setJob j b).owners o = s.owners o := by
  cases o <;> rfl

/-- every frame is about a job that is there -/
theorem Inv.frame_owner (h : Inv s place owner) {f : Frame P V} (hf : f ∈ (s.worker w).stack) : owner f.job ≠ none := by
  cases he : f.executes with
  | false =>
    have hmem := (h.owned.mem (some w) f.job).1 (mem_owns hf he)
    rw [hmem]
    exact Option.some_ne_none _
  | true =>
    have hmem := (h.placed.mem (.exec w) f.job).1 (mem_execs hf he)
    intro hnone
    rw [((h.jobs f.job).gone hnone).1] at hmem
    cases hmem

theorem Inv.frame_lt (h : Inv s place owner) {f : Frame P V} (hf : f ∈ (s.worker w).stack) : f.job < s.fresh := by
  by_contra hge
  exact h.frame_owner hf (h.bound _ (Nat.le_of_not_lt hge))

theorem Inv.place_owner (h : Inv s place owner) {q : Place} (hq : place j = some q) : owner j ≠ none := by
  intro hnone
  rw [((h.jobs j).gone hnone).1] at hq
  cases hq

theorem Needs.congr {code code' : ℕ → Prog P V} {st : List (Frame P V)} {g : Option (Prog P V)} (h : Needs code st g)
    (hsame : ∀ f ∈ st, code' f.job = code f.job) : Needs code' st g := by
  induction st generalizing g with
  | nil => cases g <;> exact h
  | cons f st ih =>
    have hrest : ∀ {g}, Needs code st g → Needs code' st g := fun hg => ih hg fun e he => hsame e (List.mem_cons_of_mem f he)
    have hafter : ∀ {a b k}, After (Needs code st) a b k → After (Needs code' st) a b k :=
      fun ⟨g, hg, hr⟩ => ⟨g, hrest hg, hr⟩
    have hf : code' f.job = code f.job := hsame f List.mem_cons_self
    cases f <;> simp only [Frame.job] at hf <;> cases g <;> simp only [Needs, hf] at h ⊢
    case exec.some => exact ⟨h.1, hrest h.2⟩
    case finish.none => exact hrest h
    case runA.some => exact hafter h
    case inlineB.some => exact ⟨h.1, h.2.imp fun a ha => ⟨ha.1, hafter ha.2⟩⟩
    case capturedB.some => exact ⟨h.1, h.2.imp fun a ha => ⟨ha.1, hafter ha.2⟩⟩
    case loop.none => exact h.imp fun a ha => ⟨ha.1, hafter ha.2⟩
    case pop.none => exact h.imp fun a ha => ⟨ha.1, hafter ha.2⟩
    case wait.none => exact h.imp fun a ha => ⟨ha.1, hafter ha.2⟩

theorem WorkerOk.congr {code code' : ℕ → Prog P V} {t : Worker P V} (h : WorkerOk code t)
    (hsame : ∀ f ∈ t.stack, code' f.job = code f.job) : WorkerOk code' t := by
  obtain ⟨c, st⟩ := t
  cases c with
  | run p =>
    obtain ⟨g, hneeds, hr⟩ := h
    exact ⟨g, hneeds.congr hsame, hr⟩
  | ret r =>
    obtain ⟨g, hneeds, hr⟩ := h
    exact ⟨g, hneeds.congr hsame, hr⟩
  | resume => exact Needs.congr h hsame

/-! ## One job and one worker change -/

/-- the frames of a job that is still to be done wait for it -/
theorem FrameOk.later {c : Prog P V} {b b' : Job P V} {q : Place} {x : Option Place} {f : Frame P V} (h : FrameOk c b (some q) f)
    (he : f.executes = false) (hx : b'.latch = true ∨ x ≠ none) : FrameOk c b' x f := by
  cases f with
  | exec => cases he
  | finish => cases he
  | inlineB => cases h.1
  | capturedB => cases h.1
  | runA => exact hx
  | loop => exact hx
  | pop => exact hx
  | wait => exact hx

theorem Inv.change (h : Inv s place owner) {b : Job P V} {t : Worker P V} {x : Option Place} {y : Option (Option ℕ)}
    (hjob : s'.job = Function.update s.job j b) (hworker : s'.worker = Function.update s.worker w t) (hcode : s'.code = s.code)
    (hfresh : s'.fresh = s.fresh) (hsound : s'.fault = false) (hext : ∀ i ∈ s'.ext, i ∈ s.ext)
    (hanswers : ∀ a ∈ s'.outcomes, a.1 < s.fresh ∧ Evals (s.code a.1) a.2)
    (hplaced : Placed s'.holds (Function.update place j x)) (howned : Placed s'.owners (Function.update owner j y))
    (hj : owner j ≠ none) (hb : JobOk (s.code j) b x y) (hwait : j ∈ s'.ext → b.latch = true ∨ x ≠ none)
    (hmine : ∀ f ∈ t.stack, FrameOk (s.code f.job) (Function.update s.job j b f.job) (Function.update place j x f.job) f)
    (hothers : ∀ u, u ≠ w → ∀ f ∈ (s.worker u).stack, f.job = j → FrameOk (s.code j) b x f)
    (hok : WorkerOk s.code t) (hrising : Rising t.stack) :
    Inv s' (Function.update place j x) (Function.update owner j y) where
  placed := hplaced
  owned := howned
  bound i hi := by
    rw [hfresh] at hi
    have hne : i ≠ j := fun heq => hj (heq ▸ h.bound i hi)
    rw [Function.update_of_ne hne]
    exact h.bound i hi
  jobs i := by
    rw [hjob, hcode]
    by_cases hi : i = j
    · subst hi
      simpa only [Function.update_self] using hb
    · simpa only [Function.update_of_ne hi] using h.jobs i
  frames u f hf := by
    rw [hworker] at hf
    rw [hjob, hcode]
    by_cases hu : u = w
    · subst hu
      rw [Function.update_self] at hf
      exact hmine f hf
    · rw [Function.update_of_ne hu] at hf
      by_cases hi : f.job = j
      · rw [hi, Function.update_self, Function.update_self]
        exact hothers u hu f hf hi
      · rw [Function.update_of_ne hi, Function.update_of_ne hi]
        exact h.frames u f hf
  waiting i hi := by
    rw [hjob]
    by_cases heq : i = j
    · subst heq
      simpa only [Function.update_self] using hwait hi
    · simpa only [Function.update_of_ne heq] using h.waiting i (hext i hi)
  workers u := by
    rw [hworker, hcode]
    by_cases hu : u = w
    · rw [hu, Function.update_self]
      exact hok
    · rw [Function.update_of_ne hu]
      exact h.workers u
  rising u := by
    rw [hworker]
    by_cases hu : u = w
    · rw [hu, Function.update_self]
      exact hrising
    · rw [Function.update_of_ne hu]
      exact h.rising u
  answers a ha := by
    rw [hcode, hfresh]
    exact hanswers a ha
  sound := hsound

/-- frames of other jobs stay as they are -/
theorem Inv.other_frame (h : Inv s place owner) {b : Job P V} {x : Option Place} {f : Frame P V} (hf : f ∈ (s.worker w).stack)
    (hne : f.job ≠ j) : FrameOk (s.code f.job) (Function.update s.job j b f.job) (Function.update place j x f.job) f := by
  rw [Function.update_of_ne hne, Function.update_of_ne hne]
  exact h.frames w f hf

/-- frames that do not execute `j`, in every stack, are in a stack of its owner -/
theorem Inv.waits_for (h : Inv s place owner) {q : Place} (hq : place j = some q) {b : Job P V} {x : Option Place}
    (hx : b.latch = true ∨ x ≠ none) {u : ℕ} (hu : q ≠ .exec u) {f : Frame P V} (hf : f ∈ (s.worker u).stack) (hj : f.job = j) :
    FrameOk (s.code j) b x f := by
  subst hj
  cases he : f.executes with
  | false =>
    have hfr := h.frames u f hf
    rw [hq] at hfr
    exact hfr.later he hx
  | true =>
    have hmem := (h.placed.mem (.exec u) f.job).1 (mem_execs hf he)
    rw [hq] at hmem
    exact absurd (Option.some.inj hmem) hu

/-- the frames below the top do not execute what the top executes -/
theorem Inv.below_exec (h : Inv s place owner) {c : Ctrl P V} {e f : Frame P V} {st : List (Frame P V)}
    (hw : s.worker w = ⟨c, e :: st⟩) (he : e.executes = true) (hf : f ∈ st) (hj : f.job = e.job) : f.executes = false := by
  have hnodup := h.placed.nodup (.exec w)
  simp only [St.holds, hw, execs_cons, he, if_true] at hnodup
  by_contra hne
  have hmem := mem_execs hf (by simpa using hne)
  rw [hj] at hmem
  exact (List.nodup_cons.1 hnodup).1 hmem

/-- only the worker goes on -/
theorem Inv.retop (h : Inv s place owner) {t : Worker P V} (hexecs : execs t.stack = execs (s.worker w).stack)
    (howns : owns t.stack = owns (s.worker w).stack)
    (hframes : ∀ f ∈ t.stack, FrameOk (s.code f.job) (s.job f.job) (place f.job) f) (hok : WorkerOk s.code t)
    (hrising : Rising t.stack) : Inv (s.setWorker w t) place owner where
  placed := h.placed.same fun q => by
    rw [holds_setWorker]
    split_ifs with hq
    · rw [hq, hexecs]
      rfl
    · rfl
  owned := h.owned.same fun o => by
    rw [owners_setWorker]
    split_ifs with ho
    · rw [ho, howns]
      rfl
    · rfl
  bound := h.bound
  jobs := h.jobs
  frames u f hf := by
    by_cases hu : u = w
    · subst hu
      rw [setWorker_self] at hf
      exact hframes f hf
    · rw [setWorker_other s hu] at hf
      exact h.frames u f hf
  waiting := h.waiting
  workers u := by
    by_cases hu : u = w
    · rw [hu, setWorker_self]
      exact hok
    · rw [setWorker_other s hu]
      exact h.workers u
  rising u := by
    by_cases hu : u = w
    · rw [hu, setWorker_self]
      exact hrising
    · rw [setWorker_other s hu]
      exact h.rising u
  answers := h.answers
  sound := h.sound

/-! ## Steps keep the invariant -/

/-- a reference is taken out of a queue -/
structure Pulled (s : St P V) (q : Place) (j : ℕ) (s' : St P V) : Prop where
  queue : q.isQueue = true
  out : (s.holds q).Perm (j :: s'.holds q)
  rest : ∀ r, r ≠ q → s'.holds r = s.holds r
  same : s' = { s with deque := s'.deque, injector := s'.injector }

theorem pulled_deque {v : ℕ} {l : List ℕ} (h : (s.deque v).Perm (j :: l)) : Pulled s (.deque v) j (s.setDeque v l) where
  queue := rfl
  out := by
    simp only [St.holds, St.setDeque, Function.update_self]
    exact h
  rest r hr := by
    cases r with
    | deque u =>
      have hu : u ≠ v := fun heq => hr (by rw [heq])
      exact Function.update_of_ne hu _ _
    | injector => rfl
    | exec u => rfl
  same := rfl

theorem pulled_last {v i : ℕ} (h : (s.deque v).getLast? = some i) : Pulled s (.deque v) i (s.setDeque v (s.deque v).dropLast) := by
  refine pulled_deque ?_
  have hsplit := List.dropLast_append_getLast? i h
  calc s.deque v = (s.deque v).dropLast ++ [i] := hsplit.symm
    List.Perm _ (i :: (s.deque v).dropLast) := List.perm_append_singleton i _

theorem take_pulled {src : Source} {i : ℕ} (h : take s w src = some (i, s')) : ∃ q, Pulled s q i s' := by
  cases src with
  | deque =>
    simp only [take] at h
    split at h
    · next l hl =>
      cases h
      exact ⟨_, pulled_last hl⟩
    · cases h
  | injector =>
    simp only [take] at h
    split at h
    · next l rest hl =>
      cases h
      refine ⟨.injector, rfl, ?_, fun r hr => ?_, rfl⟩
      · rw [St.holds, hl]
        exact List.Perm.refl _
      · cases r with
        | deque u => rfl
        | injector => exact absurd rfl hr
        | exec u => rfl
    · cases h
  | steal v =>
    simp only [take] at h
    split_ifs at h
    split at h
    · next l rest hl =>
      cases h
      exact ⟨_, pulled_deque (by rw [hl])⟩
    · cases h

theorem setWorker_again (s : St P V) (w i : ℕ) (l : List ℕ) (b : Job P V) (t t' : Worker P V) :
    (((s.setWorker w t).setDeque w l).setJob i b).setWorker w t' = ((s.setDeque w l).setJob i b).setWorker w t' := by
  simp only [St.setWorker, St.setDeque, St.setJob, Function.update_idem]

theorem Inv.pulled_place (h : Inv s place owner) {q : Place} (hp : Pulled s q j s') : place j = some q :=
  (h.placed.mem q j).1 (hp.out.mem_iff.2 List.mem_cons_self)

/-- the closure of a job from a queue is there and is taken -/
theorem Inv.start_eq (h : Inv s place owner) {q : Place} (hp : Pulled s q j s') (st : List (Frame P V)) :
    s'.start w j st = (s'.setJob j ⟨none, none, false, true⟩).setWorker w ⟨.run (s.code j), st⟩ := by
  have hb : s'.job j = ⟨some (s.code j), none, false, true⟩ := by
    rw [hp.same]
    exact (h.jobs j).queued q (h.pulled_place hp) hp.queue
  rw [St.start, hb]


/-- a job from a queue is executed on top of a loop that looks for work -/
theorem Inv.execute (h : Inv s place owner) {q : Place} {s₁ : St P V} (hp : Pulled s q j s₁) {st : List (Frame P V)}
    (hw : s.worker w = ⟨.resume, st⟩) :
    Inv (s₁.start w j (.exec j :: st)) (Function.update place j (some (.exec w))) owner := by
  have hplace := h.pulled_place hp
  have hown := h.place_owner hplace
  have hne : q ≠ .exec w := fun heq => by
    have hq := hp.queue
    rw [heq] at hq
    cases hq
  have hother : ∀ u, q ≠ .exec u := fun u heq => by
    have hq := hp.queue
    rw [heq] at hq
    cases hq
  have hstack : (s.worker w).stack = st := by rw [hw]
  rw [h.start_eq hp, hp.same, ← Function.update_eq_self j owner]
  refine h.change rfl rfl rfl rfl h.sound (fun i hi => hi) h.answers ?_ ?_ hown ?_ (fun _ => .inr (Option.some_ne_none _)) ?_ ?_ ?_ ?_
  · refine h.placed.move hne ?_ ?_ fun r hr hr' => ?_
    · rw [holds_setWorker, if_neg hne, holds_setJob, ← hp.same]
      exact hp.out
    · rw [holds_setWorker, if_pos rfl, execs_cons, St.holds, hstack]
      exact List.Perm.refl _
    · rw [holds_setWorker, if_neg hr', holds_setJob, ← hp.same]
      exact hp.rest r hr
  · rw [Function.update_eq_self]
    refine h.owned.same fun o => ?_
    rw [owners_setWorker]
    split_ifs with ho
    · rw [ho, owns_cons, St.owners, hstack]
      rfl
    · cases o <;> rfl
  · refine ⟨fun ho => absurd ho hown, ?_, fun _ => rfl, (fun hl => by cases hl)⟩
    rintro _ ⟨rfl⟩ hq
    cases hq
  · intro f hf
    rcases List.mem_cons.1 hf with rfl | hf
    · trivial
    · rw [← hstack] at hf
      by_cases hj : f.job = j
      · rw [hj, Function.update_self, Function.update_self]
        exact h.waits_for hplace (.inr (Option.some_ne_none _)) (hother w) hf hj
      · exact h.other_frame hf hj
  · exact fun u _ f hf hj => h.waits_for hplace (.inr (Option.some_ne_none _)) (hother u) hf hj
  · have hneeds := h.workers w
    rw [hw] at hneeds
    exact ⟨s.code j, ⟨rfl, hneeds⟩, fun r hr => hr⟩
  · have hrising := h.rising w
    rw [hstack] at hrising
    exact ⟨(fun he => by cases he), hrising⟩

/-- the top frame of a join: the frames below are about older jobs -/
theorem Inv.below (h : Inv s place owner) {c : Ctrl P V} {e : Frame P V} {st : List (Frame P V)} (hw : s.worker w = ⟨c, e :: st⟩)
    (he : e.executes = false) {f : Frame P V} (hf : f ∈ st) : f.job ≠ e.job := by
  have hrising := h.rising w
  rw [hw] at hrising
  exact (hrising.1 he f hf).ne

/-- ... and nothing else is about its job but what executes it -/
theorem Inv.alone (h : Inv s place owner) {c : Ctrl P V} {e : Frame P V} {st : List (Frame P V)} (hw : s.worker w = ⟨c, e :: st⟩)
    (he : e.executes = false) (hplace : ∀ u, place e.job ≠ some (.exec u)) {u : ℕ} (hu : u ≠ w) {f : Frame P V}
    (hf : f ∈ (s.worker u).stack) : f.job ≠ e.job := by
  intro hj
  cases hfe : f.executes with
  | true =>
    have hmem := (h.placed.mem (.exec u) f.job).1 (mem_execs hf hfe)
    rw [hj] at hmem
    exact hplace u hmem
  | false =>
    have hf' := (h.owned.mem (some u) f.job).1 (mem_owns hf hfe)
    have he' := (h.owned.mem (some w) e.job).1 (mem_owns (by rw [hw]; exact List.mem_cons_self) he)
    rw [hj, he'] at hf'
    exact hu (Option.some.inj (Option.some.inj hf')).symm

theorem Inv.owner_top (h : Inv s place owner) {c : Ctrl P V} {e : Frame P V} {st : List (Frame P V)} (hw : s.worker w = ⟨c, e :: st⟩)
    (he : e.executes = false) : owner e.job = some (some w) :=
  (h.owned.mem (some w) e.job).1 (mem_owns (by rw [hw]; exact List.mem_cons_self) he)

/-- the frame takes its own job back and runs it itself -/
theorem Inv.takeBack (h : Inv s place owner) {s₁ : St P V} {c : Ctrl P V} {e e' : Frame P V} {st : List (Frame P V)}
    (hw : s.worker w = ⟨c, e :: st⟩) (he : e.executes = false) (he' : e'.executes = false) (hjob : e'.job = e.job)
    (hp : Pulled s (.deque w) e.job s₁) (hframe : ∀ c : Prog P V, FrameOk c ⟨none, none, false, true⟩ none e')
    (hok : WorkerOk s.code ⟨.run (s.code e.job), e' :: st⟩) :
    Inv (s₁.start w e.job (e' :: st)) (Function.update place e.job none) owner := by
  have hplace := h.pulled_place hp
  have hown := h.place_owner hplace
  have hstack : (s.worker w).stack = e :: st := by rw [hw]
  have halone : ∀ u, place e.job ≠ some (.exec u) := fun u heq => by
    rw [hplace] at heq
    cases heq
  rw [h.start_eq hp, hp.same, ← Function.update_eq_self e.job owner]
  refine h.change rfl rfl rfl rfl h.sound (fun i hi => hi) h.answers ?_ ?_ hown ?_ (fun hmem => ?_) ?_ ?_ hok ?_
  · refine h.placed.take hp.out fun r hr => ?_
    rw [holds_setWorker, holds_setJob]
    split_ifs with hexec
    · rw [hexec, St.holds, hstack, execs_cons, execs_cons, he, he']
      rfl
    · rw [← hp.same]
      exact hp.rest r hr
  · rw [Function.update_eq_self]
    refine h.owned.same fun o => ?_
    rw [owners_setWorker]
    split_ifs with ho
    · rw [ho, St.owners, hstack, owns_cons, owns_cons, he, he', hjob]
    · cases o <;> rfl
  · exact ⟨fun ho => absurd ho hown, (fun q hq _ => by cases hq), fun _ => rfl, (fun hl => by cases hl)⟩
  · have hext := (h.owned.mem none e.job).1 hmem
    rw [h.owner_top hw he] at hext
    cases hext
  · intro f hf
    rcases List.mem_cons.1 hf with rfl | hf
    · rw [hjob, Function.update_self, Function.update_self]
      exact hframe _
    · exact h.other_frame (by rw [hstack]; exact List.mem_cons_of_mem e hf) (h.below hw he hf)
  · exact fun u hu f hf hj => absurd hj (h.alone hw he halone hu hf)
  · have hrising := h.rising w
    rw [hstack] at hrising
    refine ⟨fun _ f hf => ?_, hrising.2⟩
    rw [hjob]
    exact hrising.1 he f hf

theorem Inv.place_top (h : Inv s place owner) {c : Ctrl P V} {e : Frame P V} {st : List (Frame P V)} (hw : s.worker w = ⟨c, e :: st⟩)
    (he : e.executes = true) : place e.job = some (.exec w) :=
  (h.placed.mem (.exec w) e.job).1 (mem_execs (by rw [hw]; exact List.mem_cons_self) he)

/-- the frames under one that executes a job, after the job has changed -/
theorem Inv.under_exec (h : Inv s place owner) {c : Ctrl P V} {e : Frame P V} {st : List (Frame P V)} (hw : s.worker w = ⟨c, e :: st⟩)
    (he : e.executes = true) {b : Job P V} {x : Option Place} (hx : b.latch = true ∨ x ≠ none) {f : Frame P V} (hf : f ∈ st) :
    FrameOk (s.code f.job) (Function.update s.job e.job b f.job) (Function.update place e.job x f.job) f := by
  have hmem : f ∈ (s.worker w).stack := by
    rw [hw]
    exact List.mem_cons_of_mem e hf
  by_cases hj : f.job = e.job
  · have hfr := h.frames w f hmem
    rw [hj, h.place_top hw he] at hfr
    rw [hj, Function.update_self, Function.update_self]
    exact hfr.later (h.below_exec hw he hf hj) hx
  · exact h.other_frame hmem hj

/-- `StackJob::execute` writes the result -/
theorem Inv.write (h : Inv s place owner) {r : Except P V} {st : List (Frame P V)} (hw : s.worker w = ⟨.ret r, .exec j :: st⟩) :
    Inv ((s.setJob j { s.job j with result := some r }).setWorker w ⟨.resume, .finish j :: st⟩) place owner := by
  have hplace : place j = some (.exec w) := h.place_top hw rfl
  have hown := h.place_owner hplace
  have hsome : place j ≠ none := by
    rw [hplace]
    exact Option.some_ne_none _
  have hstack : (s.worker w).stack = .exec j :: st := by rw [hw]
  obtain ⟨g, ⟨hg, hneeds⟩, hr⟩ : ∃ g, (g = s.code j ∧ Needs s.code st none) ∧ Evals g r := by
    have hok := h.workers w
    rwa [hw] at hok
  subst hg
  rw [← Function.update_eq_self j owner, ← Function.update_eq_self j place]
  refine h.change rfl rfl rfl rfl h.sound (fun i hi => hi) h.answers ?_ ?_ hown ?_ (fun _ => .inr hsome) ?_ ?_ hneeds ?_
  · rw [Function.update_eq_self]
    refine h.placed.same fun q => ?_
    rw [holds_setWorker, holds_setJob]
    split_ifs with hq
    · rw [hq, St.holds, hstack, execs_cons, execs_cons]
      rfl
    · rfl
  · rw [Function.update_eq_self]
    refine h.owned.same fun o => ?_
    rw [owners_setWorker, owners_setJob]
    split_ifs with ho
    · rw [ho, St.owners, hstack, owns_cons, owns_cons]
      rfl
    · rfl
  · refine ⟨fun ho => absurd ho hown, fun q hq hqueue => ?_, (h.jobs j).alive, fun hl => absurd ((h.jobs j).latched hl).1 hsome⟩
    rw [hplace] at hq
    cases hq
    cases hqueue
  · intro f hf
    rcases List.mem_cons.1 hf with rfl | hf
    · rw [Frame.job, Function.update_self]
      exact ⟨r, rfl, hr⟩
    · exact h.under_exec hw rfl (.inr hsome) hf
  · exact fun u hu f hf hj => h.waits_for hplace (.inr hsome) (fun heq => hu (Place.exec.inj heq).symm) hf hj
  · have hrising := h.rising w
    rw [hstack] at hrising
    exact ⟨(fun he => by cases he), hrising.2⟩

/-- ... and sets the latch -/
theorem Inv.latch (h : Inv s place owner) {st : List (Frame P V)} (hw : s.worker w = ⟨.resume, .finish j :: st⟩) :
    Inv ((s.setJob j { s.job j with latch := true }).setWorker w ⟨.resume, st⟩) (Function.update place j none) owner := by
  have hplace : place j = some (.exec w) := h.place_top hw rfl
  have hown := h.place_owner hplace
  have hstack : (s.worker w).stack = .finish j :: st := by rw [hw]
  have hresult : ∃ r, (s.job j).result = some r ∧ Evals (s.code j) r := h.frames w (.finish j) (by rw [hstack]; exact List.mem_cons_self)
  have hneeds : Needs s.code st none := by
    have hok := h.workers w
    rwa [hw] at hok
  rw [← Function.update_eq_self j owner]
  refine h.change rfl rfl rfl rfl h.sound (fun i hi => hi) h.answers ?_ ?_ hown ?_ (fun _ => .inl rfl) ?_ ?_ hneeds ?_
  · refine h.placed.take (q := .exec w) ?_ fun r hr => ?_
    · rw [holds_setWorker, if_pos rfl, St.holds, hstack, execs_cons]
      exact List.Perm.refl _
    · rw [holds_setWorker, if_neg hr, holds_setJob]
  · rw [Function.update_eq_self]
    refine h.owned.same fun o => ?_
    rw [owners_setWorker, owners_setJob]
    split_ifs with ho
    · rw [ho, St.owners, hstack, owns_cons]
      rfl
    · rfl
  · exact ⟨fun ho => absurd ho hown, (fun q hq _ => by cases hq), (h.jobs j).alive, fun _ => ⟨rfl, hresult⟩⟩
  · exact fun f hf => h.under_exec hw rfl (.inl rfl) hf
  · exact fun u hu f hf hj => h.waits_for hplace (.inl rfl) (fun heq => hu (Place.exec.inj heq).symm) hf hj
  · have hrising := h.rising w
    rw [hstack] at hrising
    exact hrising.2

/-- the frame of a join is left -/
theorem Inv.leave (h : Inv s place owner) {c : Ctrl P V} {e : Frame P V} {t : Worker P V} (hw : s.worker w = ⟨c, e :: t.stack⟩)
    (he : e.executes = false) (hplace : place e.job = none) (hok : WorkerOk s.code t) :
    Inv ((s.setJob e.job .gone).setWorker w t) place (Function.update owner e.job none) := by
  have hstack : (s.worker w).stack = e :: t.stack := by rw [hw]
  have howner := h.owner_top hw he
  have halone : ∀ u, place e.job ≠ some (.exec u) := fun u heq => by
    rw [hplace] at heq
    cases heq
  have hown : owner e.job ≠ none := by
    rw [howner]
    exact Option.some_ne_none _
  rw [← Function.update_eq_self e.job place, hplace]
  refine h.change rfl rfl rfl rfl h.sound (fun i hi => hi) h.answers ?_ ?_ hown ?_ (fun hmem => ?_) ?_ ?_ hok ?_
  · rw [← hplace, Function.update_eq_self]
    refine h.placed.same fun q => ?_
    rw [holds_setWorker, holds_setJob]
    split_ifs with hq
    · rw [hq, St.holds, hstack, execs_cons, he]
      rfl
    · rfl
  · refine h.owned.take (q := some w) ?_ fun o ho => ?_
    · rw [owners_setWorker, if_pos rfl, St.owners, hstack, owns_cons, he]
      exact List.Perm.refl _
    · rw [owners_setWorker, if_neg ho, owners_setJob]
  · exact ⟨fun _ => ⟨rfl, rfl⟩, (fun q hq _ => by cases hq), fun ho => absurd rfl ho, (fun hl => by cases hl)⟩
  · have hext := (h.owned.mem none e.job).1 hmem
    rw [howner] at hext
    cases hext
  · exact fun f hf => h.other_frame (by rw [hstack]; exact List.mem_cons_of_mem e hf) (h.below hw he hf)
  · exact fun u hu f hf hj => absurd hj (h.alone hw he halone hu hf)
  · have hrising := h.rising w
    rw [hstack] at hrising
    exact hrising.2

/-- a thread outside the pool takes its result -/
theorem Inv.collect (h : Inv s place owner) (hj : j ∈ s.ext) (hl : (s.job j).latch = true) {r : Except P V}
    (hr : (s.job j).result = some r) :
    Inv { s.setJob j .gone with ext := s.ext.erase j, outcomes := s.outcomes ++ [(j, r)] } place (Function.update owner j none) := by
  have howner : owner j = some none := (h.owned.mem none j).1 hj
  have hown : owner j ≠ none := by
    rw [howner]
    exact Option.some_ne_none _
  obtain ⟨hplace, r', hr', hevals⟩ := (h.jobs j).latched hl
  cases hr.symm.trans hr'
  have hno : ∀ u, ∀ f ∈ (s.worker u).stack, f.job ≠ j := by
    intro u f hf hfj
    cases he : f.executes with
    | true =>
      have hmem := (h.placed.mem (.exec u) f.job).1 (mem_execs hf he)
      rw [hfj, hplace] at hmem
      cases hmem
    | false =>
      have hmem := (h.owned.mem (some u) f.job).1 (mem_owns hf he)
      rw [hfj, howner] at hmem
      cases hmem
  rw [← Function.update_eq_self j place, hplace]
  refine h.change rfl (Function.update_eq_self 0 s.worker).symm rfl rfl h.sound (fun i hi => List.mem_of_mem_erase hi) ?_ ?_ ?_ hown ?_
    (fun hmem => ?_) ?_ ?_ (h.workers 0) (h.rising 0)
  · intro a ha
    rcases List.mem_append.1 ha with ha | ha
    · exact h.answers a ha
    · cases List.mem_singleton.1 ha
      exact ⟨Nat.lt_of_not_le fun hge => hown (h.bound j hge), hevals⟩
  · rw [← hplace, Function.update_eq_self]
    exact h.placed.same fun q => by cases q <;> rfl
  · refine h.owned.take (q := none) (List.perm_cons_erase hj) fun o ho => ?_
    cases o with
    | none => exact absurd rfl ho
    | some u => rfl
  · exact ⟨fun _ => ⟨rfl, rfl⟩, (fun q hq _ => by cases hq), fun ho => absurd rfl ho, (fun hl => by cases hl)⟩
  · exact absurd hmem (h.owned.nodup none).not_mem_erase
  · exact fun f hf => h.other_frame hf (hno 0 f hf)
  · exact fun u _ f hf hfj => absurd hfj (hno u f hf)

/-- `StackJob::new`, with a reference in a queue and the frame somewhere -/
theorem Inv.alloc (h : Inv s place owner) {b : Prog P V} {q : Place} {o : Option ℕ}
    (hjob : s'.job = Function.update s.job s.fresh ⟨some b, none, false, true⟩) (hcode : s'.code = Function.update s.code s.fresh b)
    (hfresh : s'.fresh = s.fresh + 1) (hsound : s'.fault = false) (hout : s'.outcomes = s.outcomes)
    (hplaced : Placed s'.holds (Function.update place s.fresh (some q)))
    (howned : Placed s'.owners (Function.update owner s.fresh (some o))) (hext : ∀ i ∈ s'.ext, i = s.fresh ∨ i ∈ s.ext)
    (hstack : ∀ u, ∀ f ∈ (s'.worker u).stack, (∃ k, f = .runA s.fresh k) ∨ f ∈ (s.worker u).stack)
    (hworkers : ∀ u, WorkerOk s'.code (s'.worker u)) (hrising : ∀ u, Rising (s'.worker u).stack) :
    Inv s' (Function.update place s.fresh (some q)) (Function.update owner s.fresh (some o)) where
  placed := hplaced
  owned := howned
  bound i hi := by
    rw [hfresh] at hi
    rw [Function.update_of_ne (by omega)]
    exact h.bound i (by omega)
  jobs i := by
    rw [hjob, hcode]
    by_cases hi : i = s.fresh
    · subst hi
      simp only [Function.update_self]
      exact ⟨(fun ho => by cases ho), fun _ _ _ => rfl, fun _ => rfl, (fun hl => by cases hl)⟩
    · simpa only [Function.update_of_ne hi] using h.jobs i
  frames u f hf := by
    rw [hjob, hcode]
    rcases hstack u f hf with ⟨k, rfl⟩ | hf
    · simp only [Frame.job, Function.update_self]
      exact .inr (Option.some_ne_none _)
    · simpa only [Function.update_of_ne (h.frame_lt hf).ne] using h.frames u f hf
  waiting i hi := by
    rw [hjob]
    rcases hext i hi with rfl | hi
    · simp only [Function.update_self]
      exact .inr (Option.some_ne_none _)
    · have hlt : i ≠ s.fresh := fun heq => by
        have hsome := (h.owned.mem none i).1 hi
        rw [h.bound i heq.ge] at hsome
        cases hsome
      simpa only [Function.update_of_ne hlt] using h.waiting i hi
  workers := hworkers
  rising := hrising
  answers a ha := by
    rw [hout] at ha
    obtain ⟨hlt, hevals⟩ := h.answers a ha
    rw [hcode, hfresh, Function.update_of_ne hlt.ne]
    exact ⟨Nat.lt_succ_of_lt hlt, hevals⟩
  sound := hsound

theorem Inv.fresh_place (h : Inv s place owner) : place s.fresh = none := ((h.jobs s.fresh).gone (h.bound s.fresh le_rfl)).1

theorem Inv.workers_alloc (h : Inv s place owner) (b : Prog P V) (u : ℕ) : WorkerOk (s.alloc b).code (s.worker u) :=
  (h.workers u).congr fun _ hf => Function.update_of_ne (h.frame_lt hf).ne _ _

theorem pulled_inject (s : St P V) (j : ℕ) : Pulled (s.inject j) .injector j s where
  queue := rfl
  out := List.perm_append_singleton j _
  rest r hr := by
    cases r with
    | deque u => rfl
    | injector => exact absurd rfl hr
    | exec u => rfl
  same := rfl

/-- a pushed reference is in the deque, or in the injector when the deque is full -/
theorem pulled_push (s : St P V) (cap w j : ℕ) (busy : Bool) : ∃ q, Pulled (s.push cap w j busy) q j s := by
  unfold St.push
  split_ifs
  · have hp := pulled_deque (s := s.setDeque w (s.deque w ++ [j])) (v := w) (j := j) (l := s.deque w) (by
      simp only [St.setDeque, Function.update_self]
      exact List.perm_append_singleton j _)
    have hback : (s.setDeque w (s.deque w ++ [j])).setDeque w (s.deque w) = s := by
      simp only [St.setDeque, Function.update_idem, Function.update_eq_self]
    rw [hback] at hp
    exact ⟨_, hp⟩
  · exact ⟨_, pulled_inject s j⟩

theorem holds_alloc (s : St P V) (b : Prog P V) (q : Place) : (s.alloc b).holds q = s.holds q := by
  cases q <;> rfl

theorem push_same (s : St P V) (cap w j : ℕ) (busy : Bool) :
    s.push cap w j busy = { s with deque := (s.push cap w j busy).deque, injector := (s.push cap w j busy).injector } := by
  unfold St.push
  split_ifs <;> rfl

/-- `join_on_captured`: the second closure can be stolen, the first one runs -/
theorem Inv.fork (h : Inv s place owner) {a b : Prog P V} {k : Except P V → Except P V → Prog P V} {st : List (Frame P V)}
    (hw : s.worker w = ⟨.run (.join a b k), st⟩) :
    ∃ q, Inv (((s.alloc b).push cap w s.fresh busy).setWorker w ⟨.run a, .runA s.fresh k :: st⟩)
      (Function.update place s.fresh (some q)) (Function.update owner s.fresh (some (some w))) := by
  obtain ⟨q, hp⟩ := pulled_push (s.alloc b) cap w s.fresh busy
  have hstack : (s.worker w).stack = st := by rw [hw]
  have hsame := push_same (s.alloc b) cap w s.fresh busy
  have hworker : ((s.alloc b).push cap w s.fresh busy).worker = s.worker := by
    rw [hsame]
    rfl
  have hnot : q ≠ .exec w := fun heq => by
    have hqueue := hp.queue
    rw [heq] at hqueue
    cases hqueue
  have hcode : (((s.alloc b).push cap w s.fresh busy).setWorker w ⟨.run a, .runA s.fresh k :: st⟩).code = (s.alloc b).code := by
    rw [hsame]
    rfl
  refine ⟨q, h.alloc (by rw [hsame]; rfl) (by rw [hsame]; rfl) (by rw [hsame]; rfl) (by rw [hsame]; exact h.sound)
    (by rw [hsame]; rfl) ?_ ?_ ?_ ?_ ?_ ?_⟩
  · refine h.placed.put h.fresh_place ?_ fun r hr => ?_
    · rw [holds_setWorker, if_neg hnot, ← holds_alloc s b]
      exact hp.out
    · rw [holds_setWorker]
      split_ifs with hexec
      · rw [hexec, St.holds, hstack, execs_cons]
        rfl
      · rw [← hp.rest r hr, holds_alloc]
  · refine h.owned.put (h.bound s.fresh le_rfl) (q := some w) ?_ fun o ho => ?_
    · rw [owners_setWorker, if_pos rfl, owns_cons, St.owners, hstack]
      exact List.Perm.refl _
    · rw [owners_setWorker, if_neg ho, hsame]
      cases o <;> rfl
  · intro i hi
    rw [hsame] at hi
    exact .inr hi
  · intro u f hf
    by_cases hu : u = w
    · subst hu
      rw [setWorker_self] at hf
      rcases List.mem_cons.1 hf with rfl | hf
      · exact .inl ⟨k, rfl⟩
      · exact .inr (by rwa [hstack])
    · rw [setWorker_other _ hu, hworker] at hf
      exact .inr hf
  · intro u
    rw [hcode]
    by_cases hu : u = w
    · subst hu
      rw [setWorker_self]
      have hok := h.workers_alloc b u
      rw [hw] at hok
      obtain ⟨g, hneeds, hr⟩ := hok
      refine ⟨a, ⟨g, hneeds, ?_⟩, fun r hr => hr⟩
      have hb : (s.alloc b).code s.fresh = b := Function.update_self _ _ _
      rw [hb]
      exact hr
    · rw [setWorker_other _ hu, hworker]
      exact h.workers_alloc b u
  · intro u
    by_cases hu : u = w
    · subst hu
      rw [setWorker_self]
      have hrising := h.rising u
      rw [hstack] at hrising
      exact ⟨fun _ f hf => h.frame_lt (by rwa [hstack]), hrising⟩
    · rw [setWorker_other _ hu, hworker]
      exact h.rising u

/-- a thread outside the pool hands a closure in -/
theorem Inv.submit (h : Inv s place owner) (p : Prog P V) :
    Inv { (s.alloc p).inject s.fresh with ext := s.fresh :: s.ext } (Function.update place s.fresh (some .injector))
      (Function.update owner s.fresh (some none)) := by
  have hp := pulled_inject (s.alloc p) s.fresh
  refine h.alloc rfl rfl rfl h.sound rfl ?_ ?_ (fun i hi => List.mem_cons.1 hi) (fun u f hf => .inr hf) (h.workers_alloc p) h.rising
  · refine h.placed.put h.fresh_place hp.out fun r hr => ?_
    cases r with
    | deque u => rfl
    | injector => exact absurd rfl hr
    | exec u => rfl
  · refine h.owned.put (h.bound s.fresh le_rfl) (List.Perm.refl _) fun o ho => ?_
    cases o with
    | none => exact absurd rfl ho
    | some u => rfl

theorem Inv.alive_top (h : Inv s place owner) {c : Ctrl P V} {e : Frame P V} {st : List (Frame P V)} (hw : s.worker w = ⟨c, e :: st⟩) :
    (s.job e.job).alive = true :=
  (h.jobs e.job).alive (h.frame_owner (by rw [hw]; exact List.mem_cons_self))

/-- the result of a latched job is there -/
theorem Inv.settle_eq (h : Inv s place owner) {c : Ctrl P V} {e : Frame P V} {st : List (Frame P V)} (hw : s.worker w = ⟨c, e :: st⟩)
    (hl : (s.job e.job).latch = true) (ra : Except P V) (k : Except P V → Except P V → Prog P V) :
    ∃ rb, Evals (s.code e.job) rb ∧ s.settle w e.job ra k st = (s.setJob e.job .gone).setWorker w ⟨.run (k ra rb), st⟩ := by
  obtain ⟨-, rb, hresult, hb⟩ := (h.jobs e.job).latched hl
  have halive := h.alive_top hw
  refine ⟨rb, hb, ?_⟩
  obtain ⟨func, result, latch, alive, hjob⟩ : ∃ func result latch alive, s.job e.job = ⟨func, result, latch, alive⟩ := ⟨_, _, _, _, rfl⟩
  rw [hjob] at hresult halive
  cases hresult
  cases halive
  rw [St.settle, hjob]

theorem Inv.leave_settled (h : Inv s place owner) {c : Ctrl P V} {e : Frame P V} {st : List (Frame P V)}
    (hw : s.worker w = ⟨c, e :: st⟩) (he : e.executes = false) (hl : (s.job e.job).latch = true) {ra rb : Except P V}
    (hb : Evals (s.code e.job) rb) {k : Except P V → Except P V → Prog P V}
    (hneeds : ∃ a, Evals a ra ∧ After (Needs s.code st) a (s.code e.job) k) :
    Inv ((s.setJob e.job .gone).setWorker w ⟨.run (k ra rb), st⟩) place (Function.update owner e.job none) := by
  obtain ⟨a, ha, g, hg, hr⟩ := hneeds
  exact h.leave (t := ⟨.run (k ra rb), st⟩) hw he ((h.jobs e.job).latched hl).1 ⟨g, hg, fun r hk => hr r (.join ha hb hk)⟩

theorem Inv.frame_top (h : Inv s place owner) {c : Ctrl P V} {e : Frame P V} {st : List (Frame P V)} (hw : s.worker w = ⟨c, e :: st⟩) :
    FrameOk (s.code e.job) (s.job e.job) (place e.job) e :=
  h.frames w e (by rw [hw]; exact List.mem_cons_self)

/-- the top frame goes on to its next state -/
theorem Inv.retop_frame (h : Inv s place owner) {c c' : Ctrl P V} {e e' : Frame P V} {st : List (Frame P V)}
    (hw : s.worker w = ⟨c, e :: st⟩) (he : e.executes = false) (he' : e'.executes = false) (hjob : e'.job = e.job)
    (hframe : FrameOk (s.code e.job) (s.job e.job) (place e.job) e') (hok : WorkerOk s.code ⟨c', e' :: st⟩) :
    Inv (s.setWorker w ⟨c', e' :: st⟩) place owner := by
  have hframes := h.frames w
  have hrising := h.rising w
  rw [hw] at hframes hrising
  refine h.retop ?_ ?_ (fun f hf => ?_) hok ?_
  · rw [hw, execs_cons, execs_cons, he, he']
    rfl
  · rw [hw, owns_cons, owns_cons, he, he', hjob]
  · rcases List.mem_cons.1 hf with rfl | hf
    · rw [hjob]
      exact hframe
    · exact hframes f (List.mem_cons_of_mem _ hf)
  · refine ⟨fun _ f hf => ?_, hrising.2⟩
    rw [hjob]
    exact hrising.1 he f hf

/-- what a worker can do by itself -/
inductive Move (cap : ℕ) (s : St P V) (w : ℕ) : St P V → Prop
  | done {r : Except P V} {st : List (Frame P V)} (hw : s.worker w = ⟨.run (.done r), st⟩) : Move cap s w (s.setWorker w ⟨.ret r, st⟩)
  | fork {busy : Bool} {a b : Prog P V} {k : Except P V → Except P V → Prog P V} {st : List (Frame P V)}
      (hw : s.worker w = ⟨.run (.join a b k), st⟩) :
      Move cap s w (((s.alloc b).push cap w s.fresh busy).setWorker w ⟨.run a, .runA s.fresh k :: st⟩)
  | endA {r : Except P V} {j : ℕ} {k : Except P V → Except P V → Prog P V} {st : List (Frame P V)}
      (hw : s.worker w = ⟨.ret r, .runA j k :: st⟩) : Move cap s w (s.setWorker w ⟨.resume, .loop j r k :: st⟩)
  | endB {j : ℕ} {x y : V} {k : Except P V → Except P V → Prog P V} {st : List (Frame P V)}
      (hw : s.worker w = ⟨.ret (.ok y), .inlineB j x k :: st⟩) :
      Move cap s w ((s.setJob j .gone).setWorker w ⟨.run (k (.ok x) (.ok y)), st⟩)
  | unwind {j : ℕ} {x : V} {p : P} {k : Except P V → Except P V → Prog P V} {st : List (Frame P V)}
      (hw : s.worker w = ⟨.ret (.error p), .inlineB j x k :: st⟩) :
      Move cap s w ((s.setJob j .gone).setWorker w ⟨.ret (.error p), st⟩)
  | captured {j : ℕ} {p : P} {r : Except P V} {k : Except P V → Except P V → Prog P V} {st : List (Frame P V)}
      (hw : s.worker w = ⟨.ret r, .capturedB j p k :: st⟩) :
      Move cap s w ((s.setJob j .gone).setWorker w ⟨.run (k (.error p) r), st⟩)
  | write {r : Except P V} {j : ℕ} {st : List (Frame P V)} (hw : s.worker w = ⟨.ret r, .exec j :: st⟩) :
      Move cap s w ((s.setJob j { s.job j with result := some r }).setWorker w ⟨.resume, .finish j :: st⟩)
  | latch {j : ℕ} {st : List (Frame P V)} (hw : s.worker w = ⟨.resume, .finish j :: st⟩) :
      Move cap s w ((s.setJob j { s.job j with latch := true }).setWorker w ⟨.resume, st⟩)
  | settle {e : Frame P V} {j : ℕ} {ra rb : Except P V} {k : Except P V → Except P V → Prog P V} {st : List (Frame P V)}
      (hw : s.worker w = ⟨.resume, e :: st⟩) (he : e = .loop j ra k ∨ e = .wait j ra k) (hl : (s.job j).latch = true)
      (hb : Evals (s.code j) rb) : Move cap s w ((s.setJob j .gone).setWorker w ⟨.run (k ra rb), st⟩)
  | unset {j : ℕ} {ra : Except P V} {k : Except P V → Except P V → Prog P V} {st : List (Frame P V)}
      (hw : s.worker w = ⟨.resume, .loop j ra k :: st⟩) : Move cap s w (s.setWorker w ⟨.resume, .pop j ra k :: st⟩)
  | drained {j : ℕ} {ra : Except P V} {k : Except P V → Except P V → Prog P V} {st : List (Frame P V)}
      (hw : s.worker w = ⟨.resume, .pop j ra k :: st⟩) : Move cap s w (s.setWorker w ⟨.resume, .wait j ra k :: st⟩)
  | inline {j : ℕ} {x : V} {k : Except P V → Except P V → Prog P V} {st : List (Frame P V)} {s' : St P V}
      (hw : s.worker w = ⟨.resume, .pop j (.ok x) k :: st⟩) (hp : Pulled s (.deque w) j s') :
      Move cap s w (s'.start w j (.inlineB j x k :: st))
  | capture {j : ℕ} {p : P} {k : Except P V → Except P V → Prog P V} {st : List (Frame P V)} {s' : St P V}
      (hw : s.worker w = ⟨.resume, .pop j (.error p) k :: st⟩) (hp : Pulled s (.deque w) j s') :
      Move cap s w (s'.start w j (.capturedB j p k :: st))
  | other {i j : ℕ} {ra : Except P V} {k : Except P V → Except P V → Prog P V} {st : List (Frame P V)}
      (hw : s.worker w = ⟨.resume, .pop j ra k :: st⟩) (hlast : (s.deque w).getLast? = some i) :
      Move cap s w ((s.setDeque w (s.deque w).dropLast).start w i (.exec i :: .loop j ra k :: st))

theorem Inv.free_top (h : Inv s place owner) {c : Ctrl P V} {e : Frame P V} {st : List (Frame P V)} (hw : s.worker w = ⟨c, e :: st⟩) :
    s.free e.job = s.setJob e.job .gone :=
  if_pos (h.alive_top hw)

theorem Inv.probe_top (h : Inv s place owner) {c : Ctrl P V} {e : Frame P V} {st : List (Frame P V)} (hw : s.worker w = ⟨c, e :: st⟩) :
    s.probe e.job = some (s.job e.job).latch :=
  if_pos (h.alive_top hw)

/-- no step of a worker goes wrong -/
theorem Inv.work_move (h : Inv s place owner) (hs : work cap busy s w (s.worker w) = some s') : Move cap s w s' := by
  obtain ⟨c, st, hw⟩ : ∃ c st, s.worker w = ⟨c, st⟩ := ⟨_, _, rfl⟩
  have hok := h.workers w
  rw [hw] at hs hok
  cases c with
  | run p =>
    cases p with
    | done r =>
      cases hs
      exact .done hw
    | join a b k =>
      cases hs
      exact .fork hw
  | ret r =>
    obtain ⟨g, hneeds, hr⟩ := hok
    cases st with
    | nil => exact hneeds.elim
    | cons e st =>
      cases e with
      | runA j k =>
        cases hs
        exact .endA hw
      | inlineB j x k =>
        have hfree : s.free j = s.setJob j .gone := h.free_top hw
        cases r with
        | ok y =>
          simp only [work, hfree] at hs
          cases hs
          exact .endB hw
        | error p =>
          simp only [work, hfree] at hs
          cases hs
          exact .unwind hw
      | capturedB j p k =>
        have hfree : s.free j = s.setJob j .gone := h.free_top hw
        simp only [work, hfree] at hs
        cases hs
        exact .captured hw
      | exec j =>
        have halive : (s.job j).alive = true := h.alive_top hw
        rw [work, if_pos halive] at hs
        cases hs
        exact .write hw
      | loop => exact hneeds.elim
      | pop => exact hneeds.elim
      | wait => exact hneeds.elim
      | finish => exact hneeds.elim
  | resume =>
    cases st with
    | nil => cases hs
    | cons e st =>
      cases e with
      | runA => exact hok.elim
      | inlineB => exact hok.elim
      | capturedB => exact hok.elim
      | exec => exact hok.elim
      | finish j =>
        have halive : (s.job j).alive = true := h.alive_top hw
        rw [work, if_pos halive] at hs
        cases hs
        exact .latch hw
      | loop j ra k =>
        have hprobe : s.probe j = some (s.job j).latch := h.probe_top hw
        simp only [work, hprobe] at hs
        cases hl : (s.job j).latch with
        | true =>
          rw [hl] at hs
          obtain ⟨rb, hb, heq⟩ := h.settle_eq (e := .loop j ra k) hw hl ra k
          cases hs
          exact heq ▸ .settle hw (.inl rfl) hl hb
        | false =>
          rw [hl] at hs
          cases hs
          exact .unset hw
      | pop j ra k =>
        simp only [work] at hs
        cases hlast : (s.deque w).getLast? with
        | none =>
          rw [hlast] at hs
          cases hs
          exact .drained hw
        | some i =>
          rw [hlast] at hs
          by_cases hij : i = j
          · subst hij
            simp only [if_true] at hs
            cases ra with
            | ok x =>
              cases hs
              exact .inline hw (pulled_last hlast)
            | error p =>
              cases hs
              exact .capture hw (pulled_last hlast)
          · simp only [hij, if_false] at hs
            cases hs
            exact .other hw hlast
      | wait j ra k =>
        have hprobe : s.probe j = some (s.job j).latch := h.probe_top hw
        simp only [work, hprobe] at hs
        cases hl : (s.job j).latch with
        | true =>
          rw [hl] at hs
          obtain ⟨rb, hb, heq⟩ := h.settle_eq (e := .wait j ra k) hw hl ra k
          cases hs
          exact heq ▸ .settle hw (.inr rfl) hl hb
        | false =>
          rw [hl] at hs
          cases hs

theorem Inv.needs (h : Inv s place owner) {t : Worker P V} (hw : s.worker w = t) : WorkerOk s.code t := by
  rw [← hw]
  exact h.workers w

theorem Inv.move_inv (h : Inv s place owner) (hm : Move cap s w s') : ∃ place' owner', Inv s' place' owner' := by
  cases hm with
  | done hw =>
    obtain ⟨g, hneeds, hr⟩ := h.needs hw
    have hframes := h.frames w
    have hrising := h.rising w
    rw [hw] at hframes hrising
    exact ⟨place, owner, h.retop (by rw [hw]) (by rw [hw]) hframes ⟨g, hneeds, hr _ (.done _)⟩ hrising⟩
  | fork hw =>
    obtain ⟨q, hinv⟩ := h.fork hw
    exact ⟨_, _, hinv⟩
  | endA hw =>
    obtain ⟨g, hneeds, hr⟩ := h.needs hw
    exact ⟨_, _, h.retop_frame hw rfl rfl rfl (h.frame_top hw) ⟨g, hr, hneeds⟩⟩
  | endB hw =>
    obtain ⟨g, ⟨rfl, a, ha, g', hg', hafter⟩, hr⟩ := h.needs hw
    exact ⟨_, _, h.leave (t := ⟨.run _, _⟩) hw rfl (h.frame_top hw).1 ⟨g', hg', fun r hk => hafter r (.join ha hr hk)⟩⟩
  | unwind hw =>
    obtain ⟨g, ⟨rfl, a, ha, g', hg', hafter⟩, hr⟩ := h.needs hw
    exact ⟨_, _, h.leave (t := ⟨.ret _, _⟩) hw rfl (h.frame_top hw).1 ⟨g', hg', hafter _ (.unwound ha hr)⟩⟩
  | captured hw =>
    obtain ⟨g, ⟨rfl, a, ha, g', hg', hafter⟩, hr⟩ := h.needs hw
    exact ⟨_, _, h.leave (t := ⟨.run _, _⟩) hw rfl (h.frame_top hw).1 ⟨g', hg', fun r hk => hafter r (.join ha hr hk)⟩⟩
  | write hw => exact ⟨_, _, h.write hw⟩
  | latch hw => exact ⟨_, _, h.latch hw⟩
  | settle hw he hl hb =>
    rcases he with rfl | rfl
    · exact ⟨_, _, h.leave_settled hw rfl hl hb (h.needs hw)⟩
    · exact ⟨_, _, h.leave_settled hw rfl hl hb (h.needs hw)⟩
  | unset hw =>
    have hneeds := h.needs hw
    exact ⟨_, _, h.retop_frame hw rfl rfl rfl (h.frame_top hw) hneeds⟩
  | drained hw =>
    have hneeds := h.needs hw
    exact ⟨_, _, h.retop_frame hw rfl rfl rfl (h.frame_top hw) hneeds⟩
  | inline hw hp =>
    obtain ⟨a, ha, hafter⟩ := h.needs hw
    exact ⟨_, _, h.takeBack hw rfl rfl rfl hp (fun c => ⟨rfl, rfl⟩) ⟨_, ⟨rfl, a, ha, hafter⟩, fun r hr => hr⟩⟩
  | capture hw hp =>
    obtain ⟨a, ha, hafter⟩ := h.needs hw
    exact ⟨_, _, h.takeBack hw rfl rfl rfl hp (fun c => ⟨rfl, rfl⟩) ⟨_, ⟨rfl, a, ha, hafter⟩, fun r hr => hr⟩⟩
  | other hw hlast =>
    -- first back to the top of the loop, then the job on top of it
    rename_i i j ra k st
    have hneeds := h.needs hw
    have hback : Inv (s.setWorker w ⟨.resume, .loop j ra k :: st⟩) place owner :=
      h.retop_frame hw rfl rfl rfl (h.frame_top hw) hneeds
    have hp : Pulled (s.setWorker w ⟨.resume, .loop j ra k :: st⟩) (.deque w) i
        ((s.setWorker w ⟨.resume, .loop j ra k :: st⟩).setDeque w (s.deque w).dropLast) := pulled_last hlast
    have hinv := hback.execute hp (setWorker_self s w _)
    rw [hback.start_eq hp, setWorker_again] at hinv
    rw [h.start_eq (pulled_last hlast)]
    exact ⟨_, _, hinv⟩

theorem work_cases (hs : step n cap s (.work w busy) = some s') : w < n ∧ work cap busy s w (s.worker w) = some s' := by
  simp only [step] at hs
  split_ifs at hs with hw
  exact ⟨hw, hs⟩

theorem Worker.looks_iff {t : Worker P V} (h : t.looks = true) : t = ⟨.resume, t.stack⟩ := by
  obtain ⟨c, st⟩ := t
  cases c with
  | resume => rfl
  | run => cases h
  | ret => cases h

/-- `find_work`: a reference comes out of a queue and is executed -/
theorem find_cases {src : Source} (hs : step n cap s (.find w src) = some s') :
    w < n ∧ (s.worker w).looks = true ∧ ∃ i q s₁, Pulled s q i s₁ ∧ s' = s₁.start w i (.exec i :: (s.worker w).stack) := by
  simp only [step] at hs
  split_ifs at hs with hlooks
  split at hs
  · next i s₁ htake =>
    cases hs
    obtain ⟨q, hp⟩ := take_pulled htake
    exact ⟨hlooks.1, hlooks.2, i, q, s₁, hp, rfl⟩
  · cases hs

theorem Inv.collect_cases (h : Inv s place owner) (hs : step n cap s (.collect j) = some s') :
    j ∈ s.ext ∧ (s.job j).latch = true ∧ ∃ r, (s.job j).result = some r ∧
      s' = { s.setJob j .gone with ext := s.ext.erase j, outcomes := s.outcomes ++ [(j, r)] } := by
  simp only [step] at hs
  split_ifs at hs with hj
  obtain ⟨-, r, hr, -⟩ := (h.jobs j).latched hj.2
  have halive : (s.job j).alive = true := (h.jobs j).alive (by
    rw [(h.owned.mem none j).1 hj.1]
    exact Option.some_ne_none _)
  refine ⟨hj.1, hj.2, r, hr, ?_⟩
  obtain ⟨func, result, latch, alive, hjob⟩ : ∃ func result latch alive, s.job j = ⟨func, result, latch, alive⟩ := ⟨_, _, _, _, rfl⟩
  rw [hjob] at hr halive
  cases hr
  cases halive
  rw [hjob] at hs
  cases hs
  rfl

theorem step_inv {a : Act P V} (h : ∃ place owner, Inv s place owner) (hs : step n cap s a = some s') :
    ∃ place owner, Inv s' place owner := by
  obtain ⟨place, owner, h⟩ := h
  cases a with
  | work w busy => exact h.move_inv (h.work_move (work_cases hs).2)
  | find w src =>
    obtain ⟨-, hlooks, i, q, s₁, hp, rfl⟩ := find_cases hs
    exact ⟨_, _, h.execute hp (Worker.looks_iff hlooks)⟩
  | submit p =>
    cases hs
    exact ⟨_, _, h.submit p⟩
  | collect j =>
    obtain ⟨hj, hl, r, hr, rfl⟩ := h.collect_cases hs
    exact ⟨_, _, h.collect hj hl hr⟩

theorem run_inv [Inhabited V] {acts : List (Act P V)} (hrun : run n cap init acts = some s) : ∃ place owner, Inv s place owner :=
  Machine.run_keeps (P := fun s => ∃ place owner, Inv s place owner) (fun _ h hs => step_inv h hs) ⟨_, _, init_inv⟩ hrun

end Invariant

end YouPipe.Join
