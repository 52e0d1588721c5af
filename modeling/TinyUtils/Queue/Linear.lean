import TinyUtils.Lib.Fifo
import TinyUtils.Lib.Progress
import TinyUtils.Lib.Simulation
import TinyUtils.Queue.Fifo
/-!
# `LockFreeQueue` as one object

Under every interleaving the queue behaves as if each call took effect at one step of it (`Act.effect`): `Enqueue` at
`publisher = tail`, a `Dequeue` that returns false at its comparison with `publisher`, and one that returns true at its
return. The calls in this order are those of a queue (`run_linearizable`), with the values and the results that the calls
have. Nobody waits for the other thread: a call of `Enqueue` returns after seven steps of its own and one of `Dequeue`
after ten at most (`run_wait_free`).
-/

namespace TinyUtils.Queue

open Function Runs

variable {T : Type}

/-! ## The queue that both threads see -/

/-- What has been published and not delivered. -/
def pending (s : Sys T) : List T := s.published.drop s.delivered.length

/-- The operation that takes effect at a step. -/
def Act.effect (s : Sys T) : Act T → Option (Fifo.Op T)
  | .produce _ =>
    match s.producer with
    | .publish v => some (.enqueue v)
    | _ => none
  | .consume =>
    match s.consumer with
    | .compare p => if p = s.publisher then some (.dequeue none) else none
    | .count => some (.dequeue (some s.value))
    | _ => none
  | _ => none

/-- The run as the queue sees it. -/
def asQueue (s : Sys T) (tr : List (Act T × Sys T)) : List (Option (Fifo.Op T) × List T) :=
  image pending (fun s a _ => a.effect s) s tr

/-- The operations of the run, in the order in which they take effect. -/
def operations (s : Sys T) (tr : List (Act T × Sys T)) : List (Fifo.Op T) := (asQueue s tr).filterMap Prod.fst

/-- A step puts what takes effect into the history. -/
theorem Step.history [Inhabited T] {s s' : Sys T} {a : Act T} (h : Step s a s') :
    s'.published = s.published ++ (a.effect s).toList.filterMap Fifo.Op.value ∧
      s'.results = s.results ++ (a.effect s).toList.filterMap Fifo.Op.result := by
  cases h with
  | enqueue hpc => simp [Act.effect]
  | dequeue hpc => simp [Act.effect]
  | produce hidle _ hs =>
    obtain ⟨_, hres, _, ⟨v, hpc, _, _, hpub⟩ | ⟨hpc, _, _, hpub⟩ | ⟨hne, _, _, _, hpub⟩⟩ := produce_cases hs
    · simp [Act.effect, hpc, hres, hpub]
    · simp [Act.effect, hpc, hres, hpub]
    · have heffect : Act.effect s (.produce ‹Ptr›) = none := by
        cases hpc : s.producer with
        | publish v => exact absurd hpc (hne v)
        | _ => simp [Act.effect, hpc]
      simp [heffect, hres, hpub]
  | consume hidle hs =>
    obtain ⟨_, hpub, _, ⟨hpc, _, _, hres⟩ | ⟨hpc, _, _, hres⟩ | ⟨hne, hne', _, hres⟩⟩ := consume_cases hidle hs
    · simp [Act.effect, hpc, hres, hpub]
    · simp [Act.effect, hpc, hres, hpub]
    · have heffect : Act.effect s .consume = none := by
        cases hpc : s.consumer with
        | count => exact absurd hpc hne
        | compare p =>
          by_cases hp : p = s.publisher
          · simp only [Queue.consume, hpc, if_pos hp, Option.some.injEq] at hs
            exact absurd (congrArg Sys.consumer hs).symm hne'
          · simp [Act.effect, hpc, hp]
        | _ => simp [Act.effect, hpc]
      simp [heffect, hres, hpub]

/-- Where a `Dequeue` takes effect. -/
theorem Act.effect_dequeue {s : Sys T} {a : Act T} {r : Option T} (h : a.effect s = some (.dequeue r)) :
    (r = none ∧ s.consumer = .compare s.publisher) ∨ (r = some s.value ∧ s.consumer = .count) := by
  cases a with
  | enqueue v => cases h
  | dequeue => cases h
  | produce n => cases hpc : s.producer <;> simp [effect, hpc] at h
  | consume =>
    cases hpc : s.consumer with
    | compare p =>
      simp only [effect, hpc, Option.ite_none_right_eq_some, Option.some.injEq, Fifo.Op.dequeue.injEq] at h
      exact Or.inl ⟨h.2.symm, congrArg _ h.1⟩
    | count =>
      simp only [effect, hpc, Option.some.injEq, Fifo.Op.dequeue.injEq] at h
      exact Or.inr ⟨h.symm, rfl⟩
    | _ => simp [effect, hpc] at h

/-- Each step of the two threads is one of the queue, or none. -/
theorem Step.fifo [Inhabited T] {s s' : Sys T} {a : Act T} (hi : ∃ v₀ ns own, Inv s v₀ ns own) (h : Step s a s') :
    Fifo.Step (pending s) (a.effect s) (pending s') := by
  obtain ⟨v₀, ns, own, hi⟩ := hi
  obtain ⟨hpub, hres⟩ := h.history
  have hvalues := hi.values
  have hlen : s.delivered.length ≤ s.published.length := by
    rw [hvalues, List.append_assoc, List.length_append]
    exact Nat.le_add_right _ _
  cases heffect : a.effect s with
  | none =>
    rw [heffect] at hpub hres
    have hsame : pending s' = pending s := by simp [pending, Sys.delivered, hpub, hres]
    rw [hsame]
    exact .pass
  | some op =>
    rw [heffect] at hpub hres
    cases op with
    | enqueue v =>
      have hnew : pending s' = pending s ++ [v] := by
        simp only [pending, Sys.delivered, hpub, hres, Option.toList_some, Fifo.Op.result, List.filterMap_cons,
          List.filterMap_nil, Fifo.Op.value, List.append_nil]
        exact List.drop_append_of_le_length hlen
      rw [hnew]
      exact .enqueue
    | dequeue r =>
      rcases Act.effect_dequeue heffect with ⟨rfl, hpc⟩ | ⟨rfl, hpc⟩
      · have heq := hi.compare_publisher hpc
        have hnil : pending s = [] := by simp [pending, heq]
        have hnil' : pending s' = [] := by simp [pending, Sys.delivered, hpub, hres, heq]
        rw [hnil, hnil']
        exact .empty
      · simp only [hpc, ConsumerPc.hand, List.append_assoc, List.singleton_append] at hvalues
        have hfirst : pending s = s.value :: ns.map Prod.snd := by
          rw [pending, hvalues, List.drop_left]
        have hrest : pending s' = ns.map Prod.snd := by
          have hmore : s'.delivered.length = s.delivered.length + 1 := by
            simp [Sys.delivered, hres]
          have hsame : s'.published = s.published := by simp [hpub, Fifo.Op.value]
          rw [pending, hmore, hsame, hvalues, ← List.drop_drop, List.drop_left]
          rfl
        rw [hfirst, hrest]
        exact .dequeue

theorem operations_history [Inhabited T] {s : Sys T} {tr : List (Act T × Sys T)} (hr : IsRun Step s tr) :
    (last s tr).published = s.published ++ (operations s tr).filterMap Fifo.Op.value ∧
      (last s tr).results = s.results ++ (operations s tr).filterMap Fifo.Op.result := by
  induction tr generalizing s with
  | nil => simp [operations, asQueue, image, last]
  | cons x tr ih =>
    obtain ⟨a, s'⟩ := x
    obtain ⟨hpub, hres⟩ := hr.1.history
    obtain ⟨ihpub, ihres⟩ := ih hr.2
    simp only [last, ihpub, ihres, hpub, hres]
    simp only [operations, asQueue, image, List.filterMap_cons]
    cases a.effect s with
    | none => simp
    | some op => cases op <;> simp [List.filterMap_cons]

/-- **The queue is linearizable**: the calls, each at the step where it takes effect, are those of a queue; the values put
into it are those published, in their order, and the results are those that the calls of `Dequeue` returned. -/
theorem run_linearizable [Inhabited T] {h t : Ptr} {value : T} (hne : h ≠ t) {tr : List (Act T × Sys T)}
    (hr : IsRun Step (Sys.init h t value) tr) :
    IsRun Fifo.Step [] (asQueue (Sys.init h t value) tr) ∧
      (operations (Sys.init h t value) tr).filterMap Fifo.Op.value = (last (Sys.init h t value) tr).published ∧
      (operations (Sys.init h t value) tr).filterMap Fifo.Op.result = (last (Sys.init h t value) tr).results := by
  obtain ⟨hpub, hres⟩ := operations_history hr
  have hinv : ∀ s a s', (∃ v₀ : T, ∃ ns own, Inv s v₀ ns own) → Step s a s' → ∃ v₀ : T, ∃ ns own, Inv s' v₀ ns own := by
    rintro s a s' ⟨v₀, hi⟩ hs
    exact ⟨v₀, hs.inv hi⟩
  have hfifo : ∀ s a s', (∃ v₀ : T, ∃ ns own, Inv s v₀ ns own) → Step s a s' →
      Fifo.Step (pending s) (a.effect s) (pending s') := fun s a s' hi hs => hs.fifo hi
  exact ⟨isRun_image hinv hfifo ⟨default, [], [], inv_init hne⟩ hr, hpub.symm, hres.symm⟩

theorem linearizable_oneValue :
    IsRun Fifo.Step [] (asQueue (Sys.init 0 1 0) (trace (Sys.init 0 1 0) oneValue)) ∧
      (operations (Sys.init 0 1 0) (trace (Sys.init 0 1 0) oneValue)).filterMap Fifo.Op.value =
        (last (Sys.init 0 1 0) (trace (Sys.init 0 1 0) oneValue)).published ∧
      (operations (Sys.init 0 1 0) (trace (Sys.init 0 1 0) oneValue)).filterMap Fifo.Op.result =
        (last (Sys.init 0 1 0) (trace (Sys.init 0 1 0) oneValue)).results :=
  run_linearizable (by decide) oneValue_isRun

/-! ## Nobody waits -/

/-- The statements that a call of `Enqueue` has to go. -/
def ProducerPc.left : ProducerPc T → Nat
  | .idle => 0
  | .count => 1
  | .publish _ => 2
  | .setTail _ _ => 3
  | .readNext _ => 4
  | .setNext _ _ => 5
  | .new _ => 6
  | .setValue _ => 7

/-- The statements that a call of `Dequeue` has to go at most. -/
def ConsumerPc.left : ConsumerPc → Nat
  | .idle => 0
  | .count => 1
  | .delete _ => 2
  | .unlink _ _ => 3
  | .readRest _ _ => 4
  | .readUnlinked _ => 5
  | .setValue _ _ => 6
  | .readNode _ => 7
  | .setTmp => 8
  | .compare _ => 9
  | .readNext => 10

def Act.isProduce : Act T → Bool
  | .produce _ => true
  | _ => false

def Act.isConsume : Act T → Bool
  | .consume => true
  | _ => false

theorem ProducerPc.left_le (pc : ProducerPc T) : pc.left ≤ 7 := by cases pc <;> simp [left]

theorem ConsumerPc.left_le (pc : ConsumerPc) : pc.left ≤ 10 := by cases pc <;> simp [left]

theorem produce_left [Inhabited T] {s s' : Sys T} {n : Ptr} (hne : s.producer ≠ .idle) (h : produce n s = some s') :
    s'.producer.left < s.producer.left := by
  unfold produce at h
  cases hpc : s.producer with
  | idle => exact absurd hpc hne
  | readNext v =>
    simp only [hpc, Option.bind_eq_bind, Option.bind_eq_some_iff] at h
    obtain ⟨_, _, _, _, h⟩ := h
    cases h
    simp [ProducerPc.left]
  | setValue v | setNext v =>
    simp only [hpc, Option.bind_eq_bind, Option.bind_eq_some_iff] at h
    obtain ⟨_, _, h⟩ := h
    cases h
    simp [ProducerPc.left]
  | new v | setTail v | publish v | count =>
    rw [hpc] at h
    cases h
    simp [ProducerPc.left]

theorem consume_left {s s' : Sys T} (hne : s.consumer ≠ .idle) (h : consume s = some s') :
    s'.consumer.left < s.consumer.left := by
  unfold consume at h
  cases hpc : s.consumer with
  | idle => exact absurd hpc hne
  | compare p =>
    simp only [hpc] at h
    split at h <;> cases h <;> simp [ConsumerPc.left]
  | count =>
    rw [hpc] at h
    cases h
    simp [ConsumerPc.left]
  | readRest tmp p =>
    simp only [hpc, Option.bind_eq_bind, Option.bind_eq_some_iff] at h
    obtain ⟨_, _, _, _, h⟩ := h
    cases h
    simp [ConsumerPc.left]
  | readNext | setTmp | readNode tmp | setValue tmp p | readUnlinked tmp | unlink tmp q | delete tmp =>
    simp only [hpc, Option.bind_eq_bind, Option.bind_eq_some_iff] at h
    obtain ⟨_, _, h⟩ := h
    cases h
    simp [ConsumerPc.left]

/-- No call of `Enqueue` starts. -/
def NoEnqueue (_s : Sys T) (a : Act T) : Prop := ∀ v, a ≠ .enqueue v

/-- No call of `Dequeue` starts. -/
def NoDequeue (_s : Sys T) (a : Act T) : Prop := a ≠ .dequeue

theorem Step.producer_left [Inhabited T] {s s' : Sys T} {a : Act T} (h : Step s a s') (ha : NoEnqueue s a) :
    (a.isProduce = true → s'.producer.left < s.producer.left) ∧
      (a.isProduce = false → s'.producer.left ≤ s.producer.left) := by
  cases h with
  | enqueue hpc => exact absurd rfl (ha _)
  | produce hne _ hs => exact ⟨fun _ => produce_left hne hs, nofun⟩
  | dequeue hpc => exact ⟨nofun, fun _ => Nat.le_refl _⟩
  | consume hne hs => exact ⟨nofun, fun _ => Nat.le_of_eq (congrArg _ (consume_cases hne hs).1)⟩

theorem Step.consumer_left [Inhabited T] {s s' : Sys T} {a : Act T} (h : Step s a s') (ha : NoDequeue s a) :
    (a.isConsume = true → s'.consumer.left < s.consumer.left) ∧
      (a.isConsume = false → s'.consumer.left ≤ s.consumer.left) := by
  cases h with
  | enqueue hpc => exact ⟨nofun, fun _ => Nat.le_refl _⟩
  | produce hne _ hs => exact ⟨nofun, fun _ => Nat.le_of_eq (congrArg _ (produce_cases hs).1)⟩
  | dequeue hpc => exact absurd rfl ha
  | consume hne hs => exact ⟨fun _ => consume_left hne hs, nofun⟩

/-- **The queue is wait-free**: from any reachable state on, a call of `Enqueue` takes at most seven steps and a call of
`Dequeue` at most ten, in any run, and a thread that is in a call can always take its next step. -/
theorem run_wait_free [Inhabited T] {h t : Ptr} {value : T} {s : Sys T} (hne : h ≠ t)
    (hs : Reach Step (Sys.init h t value) s) {tr : List (Act T × Sys T)} (hr : IsRun Step s tr) :
    (StepsMeet NoEnqueue s tr → countOwn Act.isProduce tr ≤ 7) ∧
      (StepsMeet NoDequeue s tr → countOwn Act.isConsume tr ≤ 10) ∧
      ((last s tr).producer ≠ .idle → ∀ n, (last s tr).heap n = none → ∃ s', Step (last s tr) (.produce n) s') ∧
      ((last s tr).consumer ≠ .idle → ∃ s', Step (last s tr) .consume s') := by
  obtain ⟨ns, own, hi⟩ := inv_reach hne (hr.reach hs)
  refine ⟨fun hP => ?_, fun hP => ?_, fun hidle n hn => ?_, fun hidle => ?_⟩
  · have hrank := count_own_le (r := fun s => s.producer.left) (fun s a s' hs ha => (hs.producer_left ha).1)
      (fun s a s' hs ha => (hs.producer_left ha).2) hr hP
    have := s.producer.left_le
    omega
  · have hrank := count_own_le (r := fun s => s.consumer.left) (fun s a s' hs ha => (hs.consumer_left ha).1)
      (fun s a s' hs ha => (hs.consumer_left ha).2) hr hP
    have := s.consumer.left_le
    omega
  · obtain ⟨s', hs', _⟩ := produce_spec hi hn
    exact ⟨s', .produce hidle hn hs'⟩
  · obtain ⟨s', hs', _⟩ := consume_spec hi
    exact ⟨s', .consume hidle hs'⟩

/-- Both calls have begun. -/
def bothCalled : Sys Nat := ((Sys.init 0 1 0).next .dequeue).next (.enqueue 5)

theorem wait_free_oneValue :
    (StepsMeet NoEnqueue bothCalled (trace bothCalled (oneValue.drop 2)) →
        countOwn Act.isProduce (trace bothCalled (oneValue.drop 2)) ≤ 7) ∧
      (StepsMeet NoDequeue bothCalled (trace bothCalled (oneValue.drop 2)) →
        countOwn Act.isConsume (trace bothCalled (oneValue.drop 2)) ≤ 10) ∧
      ((last bothCalled (trace bothCalled (oneValue.drop 2))).producer ≠ .idle →
        ∀ n, (last bothCalled (trace bothCalled (oneValue.drop 2))).heap n = none →
          ∃ s', Step (last bothCalled (trace bothCalled (oneValue.drop 2))) (.produce n) s') ∧
      ((last bothCalled (trace bothCalled (oneValue.drop 2))).consumer ≠ .idle →
        ∃ s', Step (last bothCalled (trace bothCalled (oneValue.drop 2))) .consume s') := by
  have hrun := oneValue_isRun
  exact run_wait_free (by decide) ((Reach.refl.tail hrun.1).tail hrun.2.1) hrun.2.2

end TinyUtils.Queue
