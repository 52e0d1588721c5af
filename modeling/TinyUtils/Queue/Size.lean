import TinyUtils.Queue.Fifo
/-!
# What `queue_size` and `Empty` report

`Enqueue` publishes a node and counts it one statement later. In between the counter is one too low:
`Empty` can report an empty queue that has a node to deliver, and a `--size` on a counter at zero makes
`queue_size` a huge number. `CountedInTime` excludes the three steps from which this comes, and the runs
without them are exactly the runs whose reports are right (`run_sizeOk_iff`).
-/

namespace TinyUtils.Queue

open Function Runs

variable {T : Type}

/-- The rest of a call of `Dequeue`, with no step of the producer. -/
inductive DequeueRun : Sys T → Sys T → Prop
  | done {s : Sys T} : s.consumer = .idle → DequeueRun s s
  | step {s s' s'' : Sys T} : s.consumer ≠ .idle → consume s = some s' → DequeueRun s' s'' → DequeueRun s s''

/-- A `Dequeue` started in this state, with no further step of the producer, returns false. -/
def DequeueFails (s : Sys T) : Prop :=
  ∃ s', DequeueRun { s with consumer := .readNext } s' ∧ s'.results = s.results ++ [none]

/-- `queue_size` does not come from a negative counter and is at most the number of calls of `Enqueue`,
and if `Empty` returns true, so does a `Dequeue` that starts now find nothing. -/
structure SizeOk (s : Sys T) : Prop where
  nonneg : 0 ≤ s.size.toInt
  le : s.queueSize ≤ s.enqueued.length
  empty : s.empty = true → s.consumer = .idle → DequeueFails s

/-- The step is not a `publisher = tail` on a counter at zero between two calls of `Dequeue`, not a `++size`
at the largest `int`, and not a `--size` from one or zero while a published node is not counted. -/
structure CountedInTime (s : Sys T) (a : Act T) : Prop where
  publish : ∀ n v, a = .produce n → s.producer = .publish v → s.size = 0 → s.consumer ≠ .idle
  count : ∀ n, a = .produce n → s.producer = .count → s.size ≠ BitVec.intMax 32
  uncount : a = .consume → s.consumer = .count → s.producer = .count → 1 < s.size.toInt

/-- The number of published nodes that `++size` has not counted. -/
def ProducerPc.uncounted : ProducerPc T → Nat
  | .count => 1
  | _ => 0

/-- The next statement is `publisher = tail`. -/
def ProducerPc.publishing : ProducerPc T → Bool
  | .publish _ => true
  | _ => false

theorem publishing_iff {pc : ProducerPc T} : pc.publishing = true ↔ ∃ v, pc = .publish v := by
  cases pc <;> simp [ProducerPc.publishing]

theorem uncounted_eq_one {pc : ProducerPc T} : pc.uncounted = 1 ↔ pc = .count := by
  cases pc <;> simp [ProducerPc.uncounted]

theorem countedInTime_produce {s : Sys T} {n : Ptr} : CountedInTime s (.produce n) ↔
    (∀ v, s.producer = .publish v → s.size = 0 → s.consumer ≠ .idle) ∧
      (s.producer = .count → s.size ≠ BitVec.intMax 32) :=
  ⟨fun h => ⟨fun v => h.publish n v rfl, h.count n rfl⟩,
    fun h => ⟨fun _ v _ => h.1 v, fun _ _ => h.2, nofun⟩⟩

theorem countedInTime_consume {s : Sys T} : CountedInTime s .consume ↔
    (s.consumer = .count → s.producer.uncounted = 1 → 1 < s.size.toInt) :=
  ⟨fun h hc hp => h.uncount rfl hc (uncounted_eq_one.1 hp),
    fun h => ⟨nofun, nofun, fun _ hc hp => h hc (uncounted_eq_one.2 hp)⟩⟩

instance (s : Sys T) : (a : Act T) → Decidable (CountedInTime s a)
  | .enqueue _ | .dequeue => .isTrue ⟨nofun, nofun, nofun⟩
  | .produce n =>
    decidable_of_iff ((s.producer.publishing = true → s.size = 0 → s.consumer ≠ .idle) ∧
      (s.producer.uncounted = 1 → s.size ≠ BitVec.intMax 32))
      (by simp only [countedInTime_produce, publishing_iff, uncounted_eq_one, forall_exists_index])
  | .consume => decidable_of_iff _ countedInTime_consume.symm

/-- The invariant of runs whose steps are all counted in time. -/
structure SizeInv (s : Sys T) (v₀ : T) : Prop where
  fifo : ∃ ns own, Inv s v₀ ns own
  size : s.size.toInt + s.delivered.length + s.producer.uncounted = s.published.length
  nonneg : 0 ≤ s.size.toInt
  empty : s.size.toInt = 0 → s.consumer = .idle → s.published = s.delivered

/-! ## `Dequeue` alone -/

theorem DequeueRun.published_eq {s s' : Sys T} (h : DequeueRun s s') {v₀ : T} (hi : ∃ ns own, Inv s v₀ ns own)
    (hres : s'.results = s.results ++ [none]) : s.published = s.delivered := by
  induction h with
  | done _ => simp at hres
  | @step s s₁ s' hidle hs hrun ih =>
    obtain ⟨ns, own, hi⟩ := hi
    obtain ⟨_, hs₁, ns', hi₁⟩ := consume_spec hi
    cases hs.symm.trans hs₁
    obtain ⟨_, hpub, _, ⟨_, hpc₁, _, h⟩ | ⟨hpc, _⟩ | ⟨_, _, _, h⟩⟩ := consume_cases hidle hs
    · -- the call has returned true
      cases hrun with
      | done => rw [h] at hres; cases List.append_cancel_left hres
      | step hne => exact absurd hpc₁ hne
    · exact hi.compare_publisher hpc
    · have := ih ⟨ns', own, hi₁⟩ (by rw [hres, h])
      rw [hpub] at this
      rw [this]
      simp only [Sys.delivered, h]

theorem dequeueFails_iff {s : Sys T} {v₀ : T} {ns : List (Ptr × T)} {own : List Ptr} (hi : Inv s v₀ ns own)
    (hidle : s.consumer = .idle) : DequeueFails s ↔ s.published = s.delivered := by
  have hstart : Inv { s with consumer := .readNext } v₀ ns own :=
    hi.look trivial (by rw [hidle]; rfl) (by rw [hidle]; rfl)
  constructor
  · rintro ⟨s', hrun, hres⟩
    exact hrun.published_eq ⟨ns, own, hstart⟩ hres
  · intro heq
    have hv := hi.values
    rw [hidle] at hv
    have hns : ns = [] := by
      have hlen := congrArg List.length (hv.symm.trans heq)
      simp only [ConsumerPc.hand, List.append_nil, List.length_append, List.length_map] at hlen
      exact List.length_eq_zero_iff.1 (by omega)
    subst hns
    obtain ⟨p, hp, _, hps⟩ := hi.headNext
    have hps : p = s.publisher := hps
    subst hps
    have hread : consume { s with consumer := .readNext } = some { s with consumer := .compare s.publisher } := by
      have hp' : headNext { s with consumer := .readNext } = some s.publisher := hp
      simp only [consume, hp']
      rfl
    have hcompare : consume { s with consumer := .compare s.publisher } =
        some { s with consumer := .idle, results := s.results ++ [none] } := by
      simp only [consume, ↓reduceIte]
    exact ⟨_, .step (by simp) hread (.step (by simp) hcompare (.done rfl)), rfl⟩

/-! ## The counter -/

theorem toInt_add_one {x : BitVec 32} (h : 0 ≤ x.toInt) (hmax : x ≠ BitVec.intMax 32) :
    (x + 1).toInt = x.toInt + 1 := by
  have hlt := BitVec.toInt_lt (x := x)
  have hne : x.toInt ≠ 2 ^ 31 - 1 := fun hx => hmax (BitVec.eq_of_toInt_eq hx)
  rw [BitVec.toInt_add_of_not_saddOverflow]
  · rfl
  · simp only [BitVec.saddOverflow, BitVec.reduceToInt, Bool.or_eq_true, decide_eq_true_eq, not_or]
    omega

theorem toInt_sub_one {x : BitVec 32} (h : 0 ≤ x.toInt) : (x - 1).toInt = x.toInt - 1 := by
  have hlt := BitVec.toInt_lt (x := x)
  rw [BitVec.toInt_sub_of_not_ssubOverflow]
  · rfl
  · simp only [BitVec.ssubOverflow, BitVec.reduceToInt, Bool.or_eq_true, decide_eq_true_eq, not_or]
    omega

theorem empty_iff {s : Sys T} : s.empty = true ↔ s.size.toInt = 0 := by
  simp only [Sys.empty, beq_iff_eq]
  exact ⟨fun h => by rw [h]; rfl, fun h => BitVec.eq_of_toInt_eq h⟩

theorem SizeInv.sizeOk {s : Sys T} {v₀ : T} (h : SizeInv s v₀) : SizeOk s := by
  obtain ⟨ns, own, hi⟩ := h.fifo
  have hsize := h.size
  refine ⟨h.nonneg, ?_, fun hempty hidle => (dequeueFails_iff hi hidle).2 (h.empty (empty_iff.1 hempty) hidle)⟩
  have hnat : s.size.toInt = s.queueSize := BitVec.toInt_eq_toNat_of_lt (BitVec.toInt_pos_iff.1 h.nonneg)
  have hlen := congrArg List.length hi.started
  rw [List.length_append] at hlen
  omega

/-! ## Runs -/

theorem delivered_append {s s' : Sys T} {rs : List (Option T)} (h : s'.results = s.results ++ rs) :
    s'.delivered = s.delivered ++ rs.filterMap id := by
  simp only [Sys.delivered, h, List.filterMap_append]

/-- `++size` and `publisher = tail`. -/
theorem SizeInv.produce [Inhabited T] {s s' : Sys T} {v₀ : T} {n : Ptr} (hi : SizeInv s v₀)
    (hP : CountedInTime s (.produce n)) (hs : produce n s = some s') (hfifo : ∃ ns own, Inv s' v₀ ns own) :
    SizeInv s' v₀ := by
  obtain ⟨hcons, hres, _, h⟩ := produce_cases hs
  have hdel : s'.delivered = s.delivered := by simp only [Sys.delivered, hres]
  have hsize := hi.size
  rcases h with ⟨v, hpc, hpc', hsz, hpub⟩ | ⟨hpc, hpc', hsz, hpub⟩ | ⟨_, hpc, hpc', hsz, hpub⟩
  · refine ⟨hfifo, ?_, hsz ▸ hi.nonneg, fun h0 hidle => ?_⟩
    · rw [hpc] at hsize
      rw [hsz, hdel, hpc', hpub, List.length_append]
      simp only [ProducerPc.uncounted, List.length_singleton] at *
      omega
    · rw [hsz] at h0
      rw [hcons] at hidle
      exact absurd hidle (hP.publish n v rfl hpc (BitVec.eq_of_toInt_eq h0))
  · have h1 := toInt_add_one hi.nonneg (hP.count n rfl hpc)
    have h0 := hi.nonneg
    rw [hpc] at hsize
    refine ⟨hfifo, ?_, ?_, fun h => ?_⟩
    · rw [hsz, hdel, hpc', hpub, h1]
      simp only [ProducerPc.uncounted] at *
      omega
    · rw [hsz, h1]
      omega
    · rw [hsz, h1] at h
      omega
  · have huncounted : ∀ {pc : ProducerPc T}, pc ≠ .count → pc.uncounted = 0 := by
      intro pc hne
      cases pc <;> first | rfl | exact absurd rfl hne
    refine ⟨hfifo, ?_, hsz ▸ hi.nonneg, fun h0 hidle => ?_⟩
    · rw [huncounted hpc] at hsize
      rw [hsz, hdel, huncounted hpc', hpub]
      exact hsize
    · rw [hpub, hdel]
      exact hi.empty (hsz ▸ h0) (hcons ▸ hidle)

/-- `--size`, and the comparison that finds nothing. -/
theorem SizeInv.consume {s s' : Sys T} {v₀ : T} (hi : SizeInv s v₀) (hP : CountedInTime s .consume)
    (hidle : s.consumer ≠ .idle) (hs : consume s = some s') (hfifo : ∃ ns own, Inv s' v₀ ns own) : SizeInv s' v₀ := by
  obtain ⟨hprod, hpub, _, h⟩ := consume_cases hidle hs
  obtain ⟨ns, own, hinv⟩ := hi.fifo
  have hsize := hi.size
  rcases h with ⟨hpc, _, hsz, hres⟩ | ⟨hpc, _, hsz, hres⟩ | ⟨_, hpc', hsz, hres⟩
  · have hdel : s'.delivered = s.delivered ++ [s.value] := delivered_append hres
    have hval : s.published = s.delivered ++ [s.value] ++ ns.map Prod.snd := by
      have := hinv.values
      rw [hpc] at this
      exact this
    have hlen := congrArg List.length hval
    have h1 := toInt_sub_one hi.nonneg
    have hlate : s.producer = .count → 1 < s.size.toInt := hP.uncount rfl hpc
    have hunc : s.producer.uncounted = 0 ∨ s.producer = .count := by
      cases s.producer <;> first | exact Or.inl rfl | exact Or.inr rfl
    simp only [List.length_append, List.length_singleton, List.length_map] at hlen
    refine ⟨hfifo, ?_, ?_, fun h0 _ => ?_⟩
    · rw [hsz, hdel, hprod, hpub, h1, List.length_append]
      simp only [List.length_singleton]
      omega
    · rw [hsz, h1]
      rcases hunc with h | h
      · omega
      · have := hlate h
        omega
    · rw [hsz, h1] at h0
      have hns : ns = [] := by
        rcases hunc with h | h
        · exact List.length_eq_zero_iff.1 (by omega)
        · have := hlate h
          omega
      rw [hpub, hdel, hval, hns]
      simp
  · have hdel : s'.delivered = s.delivered := by rw [delivered_append hres]; simp
    refine ⟨hfifo, ?_, hsz ▸ hi.nonneg, fun _ _ => ?_⟩
    · rw [hsz, hdel, hprod, hpub]
      exact hsize
    · rw [hpub, hdel]
      exact hinv.compare_publisher hpc
  · have hdel : s'.delivered = s.delivered := by simp only [Sys.delivered, hres]
    refine ⟨hfifo, ?_, hsz ▸ hi.nonneg, fun _ h => absurd h hpc'⟩
    rw [hsz, hdel, hprod, hpub]
    exact hsize

variable [Inhabited T]

theorem Step.sizeInv {s s' : Sys T} {a : Act T} {v₀ : T} (h : Step s a s') (hi : SizeInv s v₀)
    (hP : CountedInTime s a) : SizeInv s' v₀ := by
  have hfifo := h.inv hi.fifo
  cases h with
  | enqueue hpc =>
    have hsize := hi.size
    rw [hpc] at hsize
    exact ⟨hfifo, hsize, hi.nonneg, hi.empty⟩
  | produce _ _ hs => exact hi.produce hP hs hfifo
  | dequeue => exact ⟨hfifo, hi.size, hi.nonneg, nofun⟩
  | consume hidle hs => exact hi.consume hP hidle hs hfifo

/-- Each of the three steps leads to a wrong report at once. -/
theorem Step.countedInTime {s s' : Sys T} {a : Act T} {v₀ : T} (h : Step s a s') (hi : SizeInv s v₀)
    (hq : SizeOk s') : CountedInTime s a := by
  obtain ⟨ns', own', hinv'⟩ := h.inv hi.fifo
  have hsize := hi.size
  constructor
  · rintro n v rfl hpc h0 hidle
    cases h with
    | produce _ _ hs =>
      obtain ⟨hcons, hres, _, ⟨w, _, _, hsz, hpub⟩ | ⟨hpc', _⟩ | ⟨hpc', _⟩⟩ := produce_cases hs
      · -- the node just published is there, and the counter is still zero
        have h0' : s.size.toInt = 0 := by rw [h0]; rfl
        have hidle' : s'.consumer = .idle := hcons.trans hidle
        have heq := (dequeueFails_iff hinv' hidle').1 (hq.empty (empty_iff.2 (hsz ▸ h0')) hidle')
        have hdel : s'.delivered = s.delivered := by simp only [Sys.delivered, hres]
        rw [hpub, hdel, hi.empty h0' hidle] at heq
        simp at heq
      · rw [hpc] at hpc'; cases hpc'
      · exact absurd hpc (hpc' v)
  · rintro n rfl hpc hmax
    cases h with
    | produce _ _ hs =>
      obtain ⟨_, _, _, ⟨v, hpc', _⟩ | ⟨_, _, hsz, _⟩ | ⟨_, hpc', _⟩⟩ := produce_cases hs
      · rw [hpc] at hpc'; cases hpc'
      · have hneg := hq.nonneg
        rw [hsz, hmax] at hneg
        exact absurd hneg (by decide)
      · exact absurd hpc hpc'
  · rintro rfl hpc hprod
    cases h with
    | consume hidle hs =>
      obtain ⟨_, hpub, _, ⟨_, hidle', hsz, hres⟩ | ⟨hpc', _⟩ | ⟨hpc', _⟩⟩ := consume_cases hidle hs
      · -- two published nodes are neither counted nor delivered otherwise
        have h1 := toInt_sub_one hi.nonneg
        have hneg := hq.nonneg
        rw [hsz, h1] at hneg
        by_contra hle
        have h0' : s'.size.toInt = 0 := by rw [hsz, h1]; omega
        have heq := (dequeueFails_iff hinv' hidle').1 (hq.empty (empty_iff.2 h0') hidle')
        have hdel : s'.delivered = s.delivered ++ [s.value] := delivered_append hres
        have hlen := congrArg List.length heq
        rw [hpub, hdel, List.length_append, List.length_singleton] at hlen
        rw [hprod] at hsize
        simp only [ProducerPc.uncounted] at hsize
        omega
      · rw [hpc] at hpc'; cases hpc'
      · exact absurd hpc hpc'

theorem sizeInv_init {h t : Ptr} {value : T} (hne : h ≠ t) : SizeInv (Sys.init h t value) default :=
  ⟨⟨[], [], inv_init hne⟩, rfl, Int.le_refl 0, fun _ _ => rfl⟩

/-- **What the queue reports about its size is right exactly on the runs whose steps are all counted in
time.** -/
theorem run_sizeOk_iff {h t : Ptr} {value : T} {tr : List (Act T × Sys T)} (hne : h ≠ t)
    (hr : IsRun Step (Sys.init h t value) tr) :
    StatesMeet SizeOk (Sys.init h t value) tr ↔ StepsMeet CountedInTime (Sys.init h t value) tr :=
  run_exact (I := fun s => SizeInv s default) (fun _ hi => hi.sizeOk) (fun _ _ _ hi hs hP => hs.sizeInv hi hP)
    (fun _ _ _ hi hs hq => hs.countedInTime hi hq) (sizeInv_init hne) hr

/-- The producer publishes and counts while the consumer is in a call of `Dequeue`. -/
theorem sizeOk_oneValue : StatesMeet SizeOk (Sys.init 0 1 0) (trace (Sys.init 0 1 0) oneValue) :=
  (run_sizeOk_iff (by decide) oneValue_isRun).2 (by decide)

/-- The consumer takes the first value between `publisher = tail` and `++size`. -/
def overtaken : List (Act Nat) :=
  [.enqueue 5, .produce 2, .produce 2, .produce 3, .produce 3, .produce 3, .produce 3, .dequeue,
    .consume, .consume, .consume, .consume, .consume, .consume, .consume, .consume, .consume, .consume]

theorem overtaken_isRun : IsRun Step (Sys.init 0 1 0) (trace (Sys.init 0 1 0) overtaken) :=
  ⟨.enqueue rfl, .produce nofun rfl rfl, .produce nofun rfl rfl, .produce nofun rfl rfl, .produce nofun rfl rfl,
    .produce nofun rfl rfl, .produce nofun rfl rfl, .dequeue rfl,
    .consume nofun rfl, .consume nofun rfl, .consume nofun rfl, .consume nofun rfl, .consume nofun rfl,
    .consume nofun rfl, .consume nofun rfl, .consume nofun rfl, .consume nofun rfl, .consume nofun rfl, trivial⟩

/-- `queue_size` is `4294967295` after one call of `Enqueue`. -/
theorem not_sizeOk_overtaken :
    ¬ ∀ tr : List (Act Nat × Sys Nat), IsRun Step (Sys.init 0 1 0) tr → StatesMeet SizeOk (Sys.init 0 1 0) tr := by
  intro hall
  have hend := (hall _ overtaken_isRun).last
  have hsize : (last (Sys.init 0 1 0) (trace (Sys.init 0 1 0) overtaken)).queueSize = 4294967295 := rfl
  have hle := hend.le
  rw [hsize] at hle
  exact absurd hle (by decide)

end TinyUtils.Queue
