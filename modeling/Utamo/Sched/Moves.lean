import Utamo.Sched.Invariant

/-!
# Moving one task

The steps from which the operations are made: a task is taken out of a list, changed, and put into a
list. `Step s s' t` says that a step changes the node of `t` and otherwise pointers only, and
`Queues.move` reduces the invariant after a step to what the step does to the two lists.
-/

set_option autoImplicit false

namespace Utamo.Sched

open Lib Lib.Ledger

variable {s s' : SchedMachine} {ready sleepers ready' sleepers' : List Nat} {t moved moved' : Nat}
  {u : Nat} {node : SchedTask} {l : List Nat}

/-- Apart from the node of `t` and from pointers, nothing that the invariant depends on changes. -/
structure Step (s s' : SchedMachine) (t : Nat) : Prop where
  self : s'.self = s.self
  tasks : s'.core.tasks = s.core.tasks
  current : s'.core.current = s.core.current
  idle : s'.core.idle = s.core.idle
  nextId : s'.core.nextId = s.core.nextId
  taskCount : s'.core.taskCount = s.core.taskCount
  quantumTicks : s'.core.quantumTicks = s.core.quantumTicks
  initialized : s'.core.initialized = s.core.initialized
  others : ∀ u, u ≠ t → s'.task u = { s.task u with next := s'.next u }
  owner : (s'.task t).owner = (s.task t).owner
  id : (s'.task t).id = (s.task t).id
  quantum : (s.task t).quantumLeft ≤ s.core.quantumTicks →
    (s'.task t).quantumLeft ≤ s.core.quantumTicks
  depth : (s'.task t).preemptDepth ≠ 0 → t = s.core.current ∧ (s'.task t).state = .running

theorem Step.registered_eq (h : Step s s' t) : registered s' = registered s := by
  rw [registered, registered, h.tasks]

theorem Step.state (h : Step s s' t) (hu : u ≠ t) : (s'.task u).state = (s.task u).state := by
  rw [h.others u hu]

theorem Step.wakeTick (h : Step s s' t) (hu : u ≠ t) :
    (s'.task u).wakeTick = (s.task u).wakeTick := by
  rw [h.others u hu]

theorem Step.id_eq (h : Step s s' t) (u : Nat) : (s'.task u).id = (s.task u).id := by
  by_cases hu : u = t
  · rw [hu, h.id]
  · rw [h.others u hu]

/-- The parts of the core that the registry depends on. -/
structure SameRegistry (s s' : SchedMachine) : Prop where
  self : s'.self = s.self
  tasks : s'.core.tasks = s.core.tasks
  idle : s'.core.idle = s.core.idle
  nextId : s'.core.nextId = s.core.nextId
  taskCount : s'.core.taskCount = s.core.taskCount
  quantumTicks : s'.core.quantumTicks = s.core.quantumTicks
  initialized : s'.core.initialized = s.core.initialized

/-- A registry with the same tasks, whose nodes have the same ids. -/
theorem Registry.congr (hreg : Registry s) (h : SameRegistry s s')
    (hids : ∀ u ∈ registered s, (s'.task u).id = (s.task u).id)
    (hsound : ∀ u ∈ registered s, TaskSound s' u) : Registry s' := by
  have hset : registered s' = registered s := by rw [registered, registered, h.tasks]
  refine ⟨by rw [h.initialized, hreg.initialized], by rw [h.self]; exact hreg.self,
    by rw [h.quantumTicks]; exact hreg.quantum, by rw [h.nextId]; exact hreg.nextId,
    by rw [h.nextId]; exact hreg.nextId_le, by rw [h.tasks]; exact hreg.distinct,
    by rw [h.taskCount, h.tasks]; exact hreg.count, ?_, by rw [hset, h.idle]; exact hreg.idle,
    fun u hu => hsound u (hset ▸ hu)⟩
  intro u v hu hv heq
  rw [hset] at hu hv
  rw [hids u hu, hids v hv] at heq
  exact hreg.ids u v hu hv heq

/-- A node that keeps its owner and its id stays sound. -/
theorem TaskSound.congr (hsound : TaskSound s u) (h : SameRegistry s s')
    (howner : (s'.task u).owner = (s.task u).owner) (hid : (s'.task u).id = (s.task u).id)
    (hquantum : (s'.task u).quantumLeft ≤ s.core.quantumTicks)
    (hdepth : (s'.task u).preemptDepth ≠ 0 → u = s'.core.current ∧ (s'.task u).state = .running) :
    TaskSound s' u := by
  refine ⟨by rw [howner, h.self, hsound.owner], ?_, ?_,
    by rw [h.quantumTicks]; exact hquantum, hdepth⟩
  · rw [hid, h.nextId]
    exact hsound.id_lt
  · rw [hid, h.idle]
    exact hsound.idle_iff

/-- A change of pointers alone. -/
theorem Step.of_next {readyHead readyTail sleepHead : Nat} (hsound : TaskSound s t)
    (hself : s'.self = s.self) (hcore : s'.core = { s.core with readyHead, readyTail, sleepHead })
    (hnode : ∀ u, s'.task u = { s.task u with next := s'.next u }) : Step s s' t := by
  refine ⟨hself, ?_, ?_, ?_, ?_, ?_, ?_, ?_, fun u _ => hnode u, ?_, ?_, fun hq => ?_, ?_⟩
  all_goals first | rw [hcore] | rw [hnode]
  · exact hq
  · exact hsound.depth

theorem Registry.step (hreg : Registry s) (h : Step s s' t) : Registry s' := by
  have hsame : SameRegistry s s' :=
    ⟨h.self, h.tasks, h.idle, h.nextId, h.taskCount, h.quantumTicks, h.initialized⟩
  refine hreg.congr hsame (fun u _ => h.id_eq u) fun u hu => ?_
  have hsound := hreg.sound u hu
  by_cases hut : u = t
  · subst hut
    exact hsound.congr hsame h.owner h.id (h.quantum hsound.quantum) (h.current ▸ h.depth)
  · refine hsound.congr hsame ?_ (h.id_eq u) ?_ ?_ <;> rw [h.others u hut]
    · exact hsound.quantum
    · rw [h.current]
      exact hsound.depth

/-- What a step does to the two lists. -/
structure Relinked (s s' : SchedMachine) (ready sleepers ready' sleepers' : List Nat)
    (t moved' : Nat) :
    Prop where
  loose : ∀ u, u ≠ t → u ∉ ready → u ∉ sleepers → s'.next u = s.next u
  ready_list : Segment 0 s'.next s'.core.readyHead ready' 0
  ready_nodup : ready'.Nodup
  ready_others : ∀ u, u ≠ t → (u ∈ ready' ↔ u ∈ ready)
  ready_self : t ∈ ready' ↔ moved' ≠ t ∧ (s'.task t).state = .ready
  ready_tail : s'.core.readyTail = ready'.getLast?.getD 0
  sleep_list : Segment 0 s'.next s'.core.sleepHead sleepers' 0
  sleep_nodup : sleepers'.Nodup
  sleep_others : ∀ u, u ≠ t → (u ∈ sleepers' ↔ u ∈ sleepers)
  sleep_self : t ∈ sleepers' ↔ moved' ≠ t ∧ (s'.task t).state = .sleeping
  sleep_sorted : sleepers'.Pairwise fun u v => (s'.task u).wakeTick ≤ (s'.task v).wakeTick
  settled : moved' ≠ t → TaskSettled s' t

/-- The invariant after a step. -/
theorem Queues.move (h : Queues s ready sleepers moved) (hstep : Step s s' t)
    (ht : t ∈ registered s) (hidle : t ≠ s.core.idle) (hmoved : moved = 0 ∨ moved = t)
    (hmoved' : moved' = 0 ∨ moved' = t)
    (hlists : Relinked s s' ready sleepers ready' sleepers' t moved') :
    Queues s' ready' sleepers' moved' := by
  have hset := hstep.registered_eq
  have hreg' := h.registry.step hstep
  have hidleReg := h.registry.idle
  have hidleNe : s.core.idle ≠ t := fun heq => hidle heq.symm
  -- A task other than `t` is on its way neither before nor after the step.
  have hout : ∀ u, u ∈ registered s → u ≠ t → u ≠ moved ∧ u ≠ moved' := by
    intro u hu hut
    have hu0 := ne_zero_of_registered hu
    constructor
    · rcases hmoved with hm | hm <;> rw [hm]
      · exact hu0
      · exact hut
    · rcases hmoved' with hm | hm <;> rw [hm]
      · exact hu0
      · exact hut
  obtain ⟨hidleReady, hidleSleep⟩ := h.idle_notMem
  refine ⟨hreg', ?_, ?_, ?_, ?_, hlists.ready_list, hlists.ready_nodup, ?_, hlists.ready_tail,
    hlists.sleep_list, hlists.sleep_nodup, ?_, hlists.sleep_sorted⟩
  · intro u hu hum
    rw [hset] at hu
    by_cases hut : u = t
    · rw [hut] at hum ⊢
      exact hlists.settled fun hm => hum hm.symm
    · have hold := h.settled u hu (hout u hu hut).1
      refine ⟨?_, ?_, ?_⟩
      · rw [hstep.state hut, hstep.current]
        exact hold.running
      · rw [hstep.state hut, hstep.wakeTick hut]
        exact hold.awake
      · rw [hstep.state hut]
        intro h1 h2
        have hloose : s'.next u = s.next u := by
          exact hlists.loose u hut (h.notMem_ready h1) (h.notMem_sleepers h2)
        rw [SchedMachine.next, SchedMachine.next] at hloose
        rw [hloose]
        exact hold.loose h1 h2
  · rw [hstep.idle]
    exact (hout _ hidleReg hidleNe).2
  · rw [hstep.idle, hstep.current, hstep.state hidleNe]
    exact h.idle_state
  · rw [hstep.idle]
    have hloose := hlists.loose _ hidleNe hidleReady hidleSleep
    rw [SchedMachine.next, SchedMachine.next] at hloose
    rw [hloose]
    exact h.idle_next
  · intro u
    rw [hset, hstep.idle]
    by_cases hut : u = t
    · rw [hut, hlists.ready_self]
      exact ⟨fun ⟨h1, h2⟩ => ⟨ht, h1.symm, hidle, h2⟩, fun ⟨_, h1, _, h2⟩ => ⟨h1.symm, h2⟩⟩
    · rw [hlists.ready_others u hut, h.ready_iff, hstep.state hut]
      constructor
      · rintro ⟨h1, -, h2⟩
        exact ⟨h1, (hout u h1 hut).2, h2⟩
      · rintro ⟨h1, -, h2⟩
        exact ⟨h1, (hout u h1 hut).1, h2⟩
  · intro u
    rw [hset]
    by_cases hut : u = t
    · rw [hut, hlists.sleep_self]
      exact ⟨fun ⟨h1, h2⟩ => ⟨ht, h1.symm, h2⟩, fun ⟨_, h1, h2⟩ => ⟨h1.symm, h2⟩⟩
    · rw [hlists.sleep_others u hut, h.sleep_iff, hstep.state hut]
      constructor
      · rintro ⟨h1, -, h2⟩
        exact ⟨h1, (hout u h1 hut).2, h2⟩
      · rintro ⟨h1, -, h2⟩
        exact ⟨h1, (hout u h1 hut).1, h2⟩

/-! ## Nodes and pointers -/

theorem setTask_self (s : SchedMachine) (t : Nat) (node : SchedTask) :
    (s.setTask t node).task t = node := Function.update_self ..

theorem setTask_of_ne {s : SchedMachine} {t : Nat} (h : u ≠ t) :
    (s.setTask t node).task u = s.task u := Function.update_of_ne h _ _

theorem next_setTask (s : SchedMachine) (t : Nat) (node : SchedTask) :
    (s.setTask t node).next = Function.update s.next t node.next := by
  funext u
  by_cases hu : u = t
  · rw [SchedMachine.next, hu, setTask_self, Function.update_self]
  · rw [SchedMachine.next, setTask_of_ne hu, Function.update_of_ne hu]
    rfl

/-- A list that does not contain `t` does not depend on the pointer of `t`. -/
theorem segment_update {next : Nat → Nat} {p q value : Nat}
    (h : Segment 0 next p l q) (ht : t ∉ l) : Segment 0 (Function.update next t value) p l q := by
  refine h.congr fun u hu => Function.update_of_ne ?_ _ _
  rintro rfl
  exact ht hu

/-- A list that does not contain the node of a link does not depend on the link. -/
theorem segment_linkNext {next : Nat → Nat} {p q value : Nat} {link : Option Nat}
    (h : Segment 0 next p l q) (hlink : ∀ u ∈ l, link ≠ some u) :
    Segment 0 (linkNext next link value) p l q :=
  h.congr fun u hu => linkNext_of_ne (hlink u hu)

/-- The order of sleepers that do not contain `t` does not depend on the deadline of `t`. -/
theorem sorted_congr
    (h : l.Pairwise fun u v => (s.task u).wakeTick ≤ (s.task v).wakeTick) (ht : t ∉ l)
    (hsame : ∀ u, u ≠ t → (s'.task u).wakeTick = (s.task u).wakeTick) :
    l.Pairwise fun u v => (s'.task u).wakeTick ≤ (s'.task v).wakeTick := by
  refine h.imp_of_mem fun {u v} hu hv hle => ?_
  rw [hsame u fun heq => ht (heq ▸ hu), hsame v fun heq => ht (heq ▸ hv)]
  exact hle

theorem next_writeLink (s : SchedMachine) (link : Option Nat) (value : Nat) :
    (s.writeLink link value).next = linkNext s.next link value := by
  cases link with
  | none => rfl
  | some u => exact next_setTask s u _

theorem sleepHead_writeLink (s : SchedMachine) (link : Option Nat) (value : Nat) :
    (s.writeLink link value).core.sleepHead = linkHead s.core.sleepHead link value := by
  cases link <;> rfl

theorem core_writeLink (s : SchedMachine) (link : Option Nat) (value : Nat) :
    (s.writeLink link value).core =
      { s.core with sleepHead := linkHead s.core.sleepHead link value } := by
  cases link <;> rfl

theorem self_writeLink (s : SchedMachine) (link : Option Nat) (value : Nat) :
    (s.writeLink link value).self = s.self := by
  cases link <;> rfl

/-- Writing a link changes pointers only. -/
theorem task_writeLink (s : SchedMachine) (link : Option Nat) (value u : Nat) :
    (s.writeLink link value).task u =
      { s.task u with next := (s.writeLink link value).next u } := by
  cases link with
  | none => rfl
  | some v =>
    by_cases hu : u = v
    · rw [hu, SchedMachine.next, SchedMachine.writeLink, setTask_self]
    · rw [SchedMachine.next, SchedMachine.writeLink, setTask_of_ne hu]

/-! ## The moves -/

/-- The two lists have no task in common. -/
theorem Queues.disjoint (h : Queues s ready sleepers moved) (hu : u ∈ ready) :
    u ∉ sleepers := by
  refine h.notMem_sleepers ?_
  rw [((h.ready_iff u).1 hu).2.2.2]
  exact nofun

/-- The task on its way is in neither list. -/
theorem Queues.moved_ready (h : Queues s ready sleepers t) : t ∉ ready :=
  fun hmem => ((h.ready_iff t).1 hmem).2.1 rfl

theorem Queues.moved_sleep (h : Queues s ready sleepers t) : t ∉ sleepers :=
  fun hmem => ((h.sleep_iff t).1 hmem).2.1 rfl

/-- A task outside both lists may be moved. -/
theorem Queues.mark (h : Queues s ready sleepers 0) (ht : t ∈ registered s)
    (hidle : t ≠ s.core.idle) (hready : (s.task t).state ≠ .ready)
    (hsleep : (s.task t).state ≠ .sleeping) :
    Queues s ready sleepers t := by
  have hstep : Step s s t := .of_next (h.registry.sound t ht) rfl rfl fun _ => rfl
  refine h.move hstep ht hidle (Or.inl rfl) (Or.inr rfl) ?_
  exact ⟨fun _ _ _ _ => rfl, h.ready_list, h.ready_nodup, fun _ _ => Iff.rfl,
    iff_of_false (h.notMem_ready hready) fun hc => hc.1 rfl, h.ready_tail, h.sleep_list,
    h.sleep_nodup, fun _ _ => Iff.rfl, iff_of_false (h.notMem_sleepers hsleep) fun hc => hc.1 rfl,
    h.sleep_sorted, fun hc => absurd rfl hc⟩

/-- The task on its way may be changed. -/
theorem Queues.modify (h : Queues s ready sleepers t) (ht : t ∈ registered s)
    (howner : node.owner = (s.task t).owner) (hid : node.id = (s.task t).id)
    (hquantum : (s.task t).quantumLeft ≤ s.core.quantumTicks →
    node.quantumLeft ≤ s.core.quantumTicks)
    (hdepth : node.preemptDepth ≠ 0 → t = s.core.current ∧ node.state = .running) :
    Queues (s.setTask t node) ready sleepers t := by
  have hnext := next_setTask s t node
  have hself := setTask_self s t node
  have hstep : Step s (s.setTask t node) t := by
    refine ⟨rfl, rfl, rfl, rfl, rfl, rfl, rfl, rfl, fun u hu => ?_, ?_, ?_, ?_, ?_⟩
    · rw [SchedMachine.next, setTask_of_ne hu]
    · rw [hself, howner]
    · rw [hself, hid]
    · rw [hself]
      exact hquantum
    · rw [hself]
      exact hdepth
  refine h.move hstep ht (Ne.symm h.idle_ne) (Or.inr rfl) (Or.inr rfl) ?_
  refine ⟨fun u hu _ _ => ?_, ?_, h.ready_nodup, fun _ _ => Iff.rfl,
    iff_of_false h.moved_ready fun hc => hc.1 rfl, h.ready_tail, ?_, h.sleep_nodup,
    fun _ _ => Iff.rfl, iff_of_false h.moved_sleep fun hc => hc.1 rfl, ?_, fun hc => absurd rfl hc⟩
  · rw [hnext, Function.update_of_ne hu]
  · rw [hnext]
    exact segment_update h.ready_list h.moved_ready
  · rw [hnext]
    exact segment_update h.sleep_list h.moved_sleep
  · exact sorted_congr h.sleep_sorted h.moved_sleep fun u hu => hstep.wakeTick hu

/-- A task that needs no list has arrived. -/
theorem Queues.settle (h : Queues s ready sleepers t) (ht : t ∈ registered s)
    (hsettled : TaskSettled s t) (hready : (s.task t).state ≠ .ready)
    (hsleep : (s.task t).state ≠ .sleeping) : Queues s ready sleepers 0 := by
  have hstep : Step s s t := .of_next (h.registry.sound t ht) rfl rfl fun _ => rfl
  refine h.move hstep ht (Ne.symm h.idle_ne) (Or.inr rfl) (Or.inl rfl) ?_
  exact ⟨fun _ _ _ _ => rfl, h.ready_list, h.ready_nodup, fun _ _ => Iff.rfl,
    iff_of_false h.moved_ready fun hc => hready hc.2, h.ready_tail, h.sleep_list, h.sleep_nodup,
    fun _ _ => Iff.rfl, iff_of_false h.moved_sleep fun hc => hsleep hc.2, h.sleep_sorted,
    fun _ => hsettled⟩

/-- What `ready_push` does. -/
structure Pushed (s s' : SchedMachine) (t : Nat) (link : Option Nat) : Prop where
  self : s'.self = s.self
  core : s'.core = { s.core with readyHead := linkHead s.core.readyHead link t, readyTail := t
                                 reschedule := s'.core.reschedule }
  next : s'.next = linkNext (Function.update s.next t 0) link t
  others : ∀ u, u ≠ t → s'.task u = { s.task u with next := s'.next u }
  node : s'.task t = { s.task t with next := 0, state := .ready, wakeTick := 0 }
  requested : s.core.reschedule = true → s'.core.reschedule = true
  pending : s'.currentRuns = false → s'.core.reschedule = true

theorem requestSwitch_spec (s : SchedMachine) :
    ∃ reschedule, requestSwitch s = { s with core := { s.core with reschedule } } ∧
      (s.core.reschedule = true → reschedule = true) ∧
      (s.currentRuns = false → reschedule = true) := by
  rw [requestSwitch]
  split
  · exact ⟨true, rfl, fun _ => rfl, fun _ => rfl⟩
  · rename_i hstays
    rw [not_or, not_not] at hstays
    refine ⟨s.core.reschedule, rfl, fun hreq => hreq, fun hruns => ?_⟩
    rw [hstays.2] at hruns
    cases hruns

/-- `link` is the link at the end of the FIFO. -/
theorem appendReady_spec {link : Option Nat} (htail : s.core.readyTail = link.getD 0)
    (hlink : ∀ u ∈ link, u ≠ 0 ∧ u ≠ t) :
    (appendReady s t).self = s.self ∧
    (appendReady s t).core =
      { s.core with readyHead := linkHead s.core.readyHead link t, readyTail := t } ∧
    (appendReady s t).next = linkNext (Function.update s.next t 0) link t ∧
    (∀ u, u ≠ t → (appendReady s t).task u = { s.task u with next := (appendReady s t).next u }) ∧
    (appendReady s t).task t = { s.task t with next := 0, state := .ready, wakeTick := 0 } := by
  rw [appendReady]
  generalize hnode : { s.task t with next := 0, state := .ready, wakeTick := 0 } = node
  have hself := setTask_self s t node
  have hnext : (s.setTask t node).next = Function.update s.next t 0 := by
    rw [next_setTask, ← hnode]
  cases link with
  | none =>
    have htail0 : ¬ (s.setTask t node).core.readyTail ≠ 0 := not_not.2 htail
    simp only [if_neg htail0]
    refine ⟨rfl, rfl, hnext, fun u hu => ?_, hself⟩
    rw [SchedMachine.next]
    simp only [setTask_of_ne hu]
  | some z =>
    obtain ⟨hz0, hzt⟩ := hlink z rfl
    have htailz : (s.setTask t node).core.readyTail = z := htail
    simp only [htailz, if_pos hz0]
    refine ⟨rfl, rfl, ?_, fun u hu => ?_, ?_⟩
    · rw [linkNext, ← hnext]
      exact next_setTask _ z _
    · rw [SchedMachine.next]
      simp only
      by_cases huz : u = z
      · rw [huz, setTask_self, setTask_of_ne hzt]
      · rw [setTask_of_ne huz, setTask_of_ne hu]
    · rw [setTask_of_ne hzt.symm, hself]

theorem readyPush_spec {link : Option Nat} (htail : s.core.readyTail = link.getD 0)
    (hlink : ∀ u ∈ link, u ≠ 0 ∧ u ≠ t) : Pushed s (readyPush s t) t link := by
  obtain ⟨hself, hcore, hnext, hothers, hnode⟩ := appendReady_spec htail hlink
  rw [readyPush]
  obtain ⟨reschedule, hswitch, hreq, hpend⟩ := requestSwitch_spec (appendReady s t)
  rw [hswitch]
  refine ⟨hself, by rw [hcore], hnext, hothers, hnode, fun h => ?_, hpend⟩
  rw [hcore] at hreq
  exact hreq h

/-- `ready_push` puts the task on its way at the end of the FIFO. -/
theorem Queues.push (h : Queues s ready sleepers t) (ht : t ∈ registered s)
    (hdepth : (s.task t).preemptDepth = 0) :
    Pushed s (readyPush s t) t ready.getLast? ∧
    Queues (readyPush s t) (ready ++ [t]) sleepers 0 := by
  have hlink : ∀ u ∈ ready.getLast?, u ≠ 0 ∧ u ≠ t := by
    intro u hu
    have hmem := List.mem_of_mem_getLast? hu
    refine ⟨h.ready_list.ne_null hmem, ?_⟩
    rintro rfl
    exact h.moved_ready hmem
  have hpush : Pushed s (readyPush s t) t ready.getLast? := readyPush_spec h.ready_tail hlink
  refine ⟨hpush, ?_⟩
  generalize readyPush s t = s' at hpush
  have hstep : Step s s' t := by
    refine ⟨hpush.self, by rw [hpush.core], by rw [hpush.core], by rw [hpush.core],
      by rw [hpush.core], by rw [hpush.core], by rw [hpush.core], by rw [hpush.core], hpush.others,
      by rw [hpush.node], by rw [hpush.node], by rw [hpush.node]; exact fun hq => hq, ?_⟩
    rw [hpush.node]
    exact fun hne => absurd hdepth hne
  have hstate : (s'.task t).state = .ready := by rw [hpush.node]
  refine h.move hstep ht (Ne.symm h.idle_ne) (Or.inr rfl) (Or.inl rfl) ?_
  have ht0 : t ≠ 0 := ne_zero_of_registered ht
  refine ⟨fun u hu hr _ => ?_, ?_, ?_, fun u hu => ?_, iff_of_true (by simp) ⟨ht0.symm, hstate⟩, ?_,
    ?_, h.sleep_nodup, fun _ _ => Iff.rfl, iff_of_false h.moved_sleep fun hc => ?_, ?_, fun _ => ?_⟩
  · rw [hpush.next, linkNext_of_ne, Function.update_of_ne hu]
    intro heq
    exact hr (List.mem_of_mem_getLast? heq)
  · -- The old list is redirected to the task, which ends the list.
    have hold : Segment 0 (Function.update s.next t 0) s.core.readyHead ready 0 :=
      segment_update h.ready_list h.moved_ready
    have hred := hold.redirect h.ready_nodup t
    rw [hpush.next, hpush.core]
    refine segment_append.2 ⟨t, hred, rfl, ht0, ?_⟩
    rw [linkNext_of_ne, Function.update_self]
    · rfl
    · exact fun heq => (hlink t heq).2 rfl
  · rw [List.nodup_append]
    refine ⟨h.ready_nodup, List.nodup_singleton t, ?_⟩
    rintro u hu v hv rfl
    rw [List.mem_singleton] at hv
    exact h.moved_ready (hv ▸ hu)
  · rw [List.mem_append, List.mem_singleton]
    exact ⟨fun hor => hor.resolve_right hu, Or.inl⟩
  · rw [hpush.core, List.getLast?_append_of_ne_nil _ (List.cons_ne_nil t []),
      List.getLast?_singleton]
    rfl
  · rw [hpush.next, hpush.core]
    refine segment_linkNext (segment_update h.sleep_list h.moved_sleep) fun u hu heq => ?_
    exact h.disjoint (List.mem_of_mem_getLast? heq) hu
  · rw [hstate] at hc
    cases hc.2
  · exact sorted_congr h.sleep_sorted h.moved_sleep fun u hu => hstep.wakeTick hu
  · refine ⟨fun hc => ?_, fun _ => ?_, fun hc => absurd hstate hc⟩
    · rw [hstate] at hc
      cases hc
    · rw [hpush.node]

/-- The sleepers before and after a task that is taken off the list. -/
theorem Queues.unlink {before after : List Nat} (h : Queues s ready (before ++ t :: after) 0)
    (hs' : s' = s.writeLink before.getLast? (s.next t)) :
    Step s s' t ∧ Queues s' ready (before ++ after) t := by
  have hmem : t ∈ before ++ t :: after := by simp
  obtain ⟨ht, -, hstate⟩ := (h.sleep_iff t).1 hmem
  have hnodup := h.sleep_nodup
  have hperm : (t :: (before ++ after)).Nodup := List.nodup_middle.1 hnodup
  have hfresh : t ∉ before ++ after := (List.nodup_cons.1 hperm).1
  have hlast : ∀ u, before.getLast? = some u → u ∈ before := fun u hu => List.mem_of_mem_getLast? hu
  have hlink : before.getLast? ≠ some t := fun heq => hfresh (by simp [hlast t heq])
  have hidle : t ≠ s.core.idle := by
    rintro rfl
    exact h.idle_awake hstate
  have hnext : s'.next = linkNext s.next before.getLast? (s.next t) := by
    rw [hs', next_writeLink]
  have hstep : Step s s' t := by
    rw [hs']
    exact .of_next (h.registry.sound t ht) (self_writeLink s _ _) (core_writeLink s _ _)
      (task_writeLink s _ _)
  refine ⟨hstep, h.move hstep ht hidle (Or.inl rfl) (Or.inr rfl) ?_⟩
  have hready : t ∉ ready := fun hr => h.disjoint hr hmem
  refine ⟨fun u hu _ hns => ?_, ?_, h.ready_nodup, fun _ _ => Iff.rfl,
    iff_of_false hready fun hc => hc.1 rfl, ?_, ?_, (List.nodup_cons.1 hperm).2, fun u hu => ?_,
    iff_of_false hfresh fun hc => hc.1 rfl, ?_, fun hc => absurd rfl hc⟩
  · rw [hnext]
    refine linkNext_of_ne fun heq => hns ?_
    simp [hlast u heq]
  · rw [hnext, hs', core_writeLink]
    refine segment_linkNext h.ready_list fun u hu heq => ?_
    exact h.disjoint hu (by simp [hlast u heq])
  · rw [hs', core_writeLink]
    exact h.ready_tail
  · -- The part before the task is redirected to the part behind it.
    obtain ⟨mid, hbefore, rfl, -, hafter⟩ := segment_append.1 h.sleep_list
    rw [hnext, hs', sleepHead_writeLink]
    refine segment_append.2 ⟨s.next mid, hbefore.redirect (hnodup.sublist (by simp)) _, ?_⟩
    refine segment_linkNext hafter fun u hu heq => ?_
    rw [List.nodup_append] at hnodup
    exact hnodup.2.2 u (hlast u heq) u (List.mem_cons_of_mem mid hu) rfl
  · simp [hu]
  · have hsorted : (before ++ after).Pairwise _ := h.sleep_sorted.sublist (by simp)
    exact sorted_congr hsorted hfresh fun u hu => hstep.wakeTick hu

/-- The task on its way becomes a sleeper between those with an earlier deadline and the others. -/
theorem Queues.link {before after : List Nat} (h : Queues s ready (before ++ after) t)
    (ht : t ∈ registered s) (hstate : (s.task t).state = .sleeping)
    (hbefore : ∀ u ∈ before, (s.task u).wakeTick ≤ (s.task t).wakeTick)
    (hafter : ∀ u ∈ after, (s.task t).wakeTick ≤ (s.task u).wakeTick)
    (hs' : s' = (s.setTask t { s.task t with
      next := readLink s.core.sleepHead s.next before.getLast? }).writeLink before.getLast? t) :
    Step s s' t ∧ Queues s' ready (before ++ t :: after) 0 := by
  have ht0 : t ≠ 0 := ne_zero_of_registered ht
  have hfresh := h.moved_sleep
  have hlast : ∀ u, before.getLast? = some u → u ∈ before := fun u hu => List.mem_of_mem_getLast? hu
  have hlink : before.getLast? ≠ some t := fun heq => hfresh (by simp [hlast t heq])
  obtain ⟨mid, hfirst, hsecond⟩ := segment_append.1 h.sleep_list
  rw [hfirst.readLink_eq] at hs'
  generalize hs1 : s.setTask t { s.task t with next := mid } = s1 at hs'
  have hnext1 : s1.next = Function.update s.next t mid := by rw [← hs1, next_setTask]
  have hcore1 : s1.core = s.core := by rw [← hs1]; rfl
  have hnext : s'.next = linkNext (Function.update s.next t mid) before.getLast? t := by
    rw [hs', next_writeLink, hnext1]
  have hnode : ∀ u, s'.task u = { s.task u with next := s'.next u } := by
    intro u
    rw [hs', task_writeLink, ← hs1]
    by_cases hu : u = t
    · rw [hu, setTask_self]
    · rw [setTask_of_ne hu]
  have hcore :
      s'.core = { s.core with sleepHead := linkHead s.core.sleepHead before.getLast? t } := by
    rw [hs', core_writeLink, hcore1]
  have hstep : Step s s' t :=
    .of_next (h.registry.sound t ht) (by rw [hs', self_writeLink, ← hs1]; rfl) hcore hnode
  have hnodup : (before ++ t :: after).Nodup :=
    List.nodup_middle.2 (List.nodup_cons.2 ⟨hfresh, h.sleep_nodup⟩)
  refine ⟨hstep, h.move hstep ht (Ne.symm h.idle_ne) (Or.inr rfl) (Or.inl rfl) ?_⟩
  refine ⟨fun u hu _ hns => ?_, ?_, h.ready_nodup, fun _ _ => Iff.rfl,
    iff_of_false h.moved_ready fun hc => ?_, ?_, ?_, hnodup, fun u hu => ?_,
    iff_of_true (by simp) ⟨ht0.symm, by rw [hnode]; exact hstate⟩, ?_, fun _ => ?_⟩
  · rw [hnext, linkNext_of_ne, Function.update_of_ne hu]
    exact fun heq => hns (by simp [hlast u heq])
  · rw [hnext, hcore]
    refine segment_linkNext (segment_update h.ready_list h.moved_ready) fun u hu heq => ?_
    exact h.disjoint hu (by simp [hlast u heq])
  · rw [hnode, hstate] at hc
    cases hc.2
  · rw [hcore]
    exact h.ready_tail
  · rw [hnext, hcore]
    have hbeforeFresh : t ∉ before := fun hmem => hfresh (by simp [hmem])
    have hafterFresh : t ∉ after := fun hmem => hfresh (by simp [hmem])
    have hfirst' : Segment 0 (Function.update s.next t mid) s.core.sleepHead before mid :=
      segment_update hfirst hbeforeFresh
    have hred := hfirst'.redirect (h.sleep_nodup.sublist (by simp)) t
    refine segment_append.2 ⟨t, hred, rfl, ht0, ?_⟩
    rw [linkNext_of_ne hlink, Function.update_self]
    refine segment_linkNext (segment_update hsecond hafterFresh) fun u hu heq => ?_
    have hsplit := h.sleep_nodup
    rw [List.nodup_append] at hsplit
    exact hsplit.2.2 u (hlast u heq) u hu rfl
  · simp [hu]
  · have hdeadline : ∀ u, (s'.task u).wakeTick = (s.task u).wakeTick := fun u => by rw [hnode]
    have hsorted := h.sleep_sorted
    simp only [hdeadline]
    rw [List.pairwise_append] at hsorted ⊢
    refine ⟨hsorted.1, List.pairwise_cons.2 ⟨hafter, hsorted.2.1⟩, fun u hu v hv => ?_⟩
    rcases List.mem_cons.1 hv with rfl | hv
    · exact hbefore u hu
    · exact hsorted.2.2 u hu v hv
  · have hsleeps : (s'.task t).state = .sleeping := by rw [hnode, hstate]
    exact ⟨fun hc => SchedState.noConfusion (hsleeps.symm.trans hc), fun hc => absurd hsleeps hc,
      fun _ hc => absurd hsleeps hc⟩

/-- The head of the FIFO is taken off. -/
theorem Queues.pop (h : Queues s (t :: ready) sleepers 0)
    (hs' : s' = { s with core := { s.core with
      readyHead := s.next t, readyTail := if s.next t = 0 then 0 else s.core.readyTail } }) :
    Step s s' t ∧ Queues s' ready sleepers t := by
  obtain ⟨ht, -, hidle, hstate⟩ := (h.ready_iff t).1 List.mem_cons_self
  obtain ⟨-, -, hrest⟩ := h.ready_list
  have hnodup := List.nodup_cons.1 h.ready_nodup
  have hstep : Step s s' t := by
    rw [hs']
    exact .of_next (h.registry.sound t ht) rfl rfl fun _ => rfl
  refine ⟨hstep, h.move hstep ht hidle (Or.inl rfl) (Or.inr rfl) ?_⟩
  have hnext : s'.next = s.next := by
    rw [hs']
    rfl
  refine ⟨fun u _ _ _ => by rw [hnext], ?_, hnodup.2, fun u hu => by simp [hu],
    iff_of_false hnodup.1 fun hc => hc.1 rfl, ?_, ?_, h.sleep_nodup, fun _ _ => Iff.rfl,
    iff_of_false (h.disjoint List.mem_cons_self) fun hc => hc.1 rfl, ?_, fun hc => absurd rfl hc⟩
  · rw [hnext, hs']
    exact hrest
  · rw [hs']
    simp only
    cases ready with
    | nil =>
      have hnil : s.next t = 0 := hrest
      rw [if_pos hnil]
      rfl
    | cons u ready =>
      obtain ⟨hu, hu0, -⟩ := hrest
      rw [if_neg (by rw [hu]; exact hu0), h.ready_tail]
      simp
  · rw [hnext, hs']
    exact h.sleep_list
  · rw [hs']
    exact h.sleep_sorted

/-! ## The rest of the core -/

/-- The parts of the core that the invariant of the queues depends on, the current task apart. -/
structure SameCore (s s' : SchedMachine) : Prop extends SameRegistry s s' where
  readyHead : s'.core.readyHead = s.core.readyHead
  readyTail : s'.core.readyTail = s.core.readyTail
  sleepHead : s'.core.sleepHead = s.core.sleepHead

/-- What a change that moves no task may do to a registered one: its accounting changes, and the
state of the idle task. -/
structure NodeKept (s s' : SchedMachine) (moved u : Nat) : Prop where
  owner : (s'.task u).owner = (s.task u).owner
  id : (s'.task u).id = (s.task u).id
  next : (s'.task u).next = (s.task u).next
  wakeTick : (s'.task u).wakeTick = (s.task u).wakeTick
  quantum : (s'.task u).quantumLeft ≤ s.core.quantumTicks
  state : u ≠ s.core.idle → (s'.task u).state = (s.task u).state
  depth : (s'.task u).preemptDepth ≠ 0 → u = s'.core.current ∧ (s'.task u).state = .running
  running : u ≠ moved → (s'.task u).state = .running → u = s'.core.current

/-- A change that moves no task keeps the lists. -/
theorem Queues.retain (h : Queues s ready sleepers moved) (hcore : SameCore s s')
    (hnode : ∀ u ∈ registered s, NodeKept s s' moved u)
    (hidle : (s'.task s.core.idle).state =
      if s.core.idle = s'.core.current then .running else .ready) :
    Queues s' ready sleepers moved := by
  have hreg := h.registry
  have hset : registered s' = registered s := by rw [registered, registered, hcore.tasks]
  have hreg' : Registry s' := by
    refine hreg.congr hcore.toSameRegistry (fun u hu => (hnode u hu).id) fun u hu => ?_
    have hkept := hnode u hu
    exact (hreg.sound u hu).congr hcore.toSameRegistry hkept.owner hkept.id
      hkept.quantum hkept.depth
  have hidleSettled := h.settled _ hreg.idle h.idle_ne
  have hlist : ∀ {p : Nat} {l : List Nat}, (∀ u ∈ l, u ∈ registered s) → Segment 0 s.next p l 0 →
      Segment 0 s'.next p l 0 :=
    fun hmem hseg => hseg.congr fun u hu => (hnode u (hmem u hu)).next
  have hsleepers : ∀ u ∈ sleepers, u ∈ registered s := fun u hu => ((h.sleep_iff u).1 hu).1
  refine ⟨hreg', fun u hu hm => ?_,
    by rw [hcore.idle]; exact h.idle_ne, by rw [hcore.idle]; exact hidle,
    by rw [hcore.idle, (hnode _ hreg.idle).next, h.idle_next], ?_, h.ready_nodup, fun u => ?_,
    by rw [hcore.readyTail, h.ready_tail], ?_, h.sleep_nodup, fun u => ?_, ?_⟩
  · rw [hset] at hu
    have hkept := hnode u hu
    by_cases hui : u = s.core.idle
    · subst hui
      refine ⟨hkept.running hm, fun _ => ?_, fun _ _ => ?_⟩
      · rw [hkept.wakeTick, hidleSettled.awake h.idle_awake]
      · rw [hkept.next, h.idle_next]
    · have hsettled := h.settled u hu hm
      refine ⟨hkept.running hm, ?_, ?_⟩ <;> rw [hkept.state hui]
      · rw [hkept.wakeTick]
        exact hsettled.awake
      · rw [hkept.next]
        exact hsettled.loose
  · rw [hcore.readyHead]
    exact hlist (fun u hu => ((h.ready_iff u).1 hu).1) h.ready_list
  · rw [h.ready_iff, hset, hcore.idle]
    refine and_congr_right fun hu => and_congr_right fun _ => and_congr_right fun hui => ?_
    rw [(hnode u hu).state hui]
  · rw [hcore.sleepHead]
    exact hlist hsleepers h.sleep_list
  · rw [h.sleep_iff, hset]
    refine and_congr_right fun hu => and_congr_right fun _ => ?_
    by_cases hui : u = s.core.idle
    · subst hui
      refine iff_of_false h.idle_awake ?_
      rw [hidle]
      split <;> simp
    · rw [(hnode u hu).state hui]
  · refine h.sleep_sorted.imp_of_mem fun {u v} hu hv hle => ?_
    rw [(hnode u (hsleepers u hu)).wakeTick, (hnode v (hsleepers v hv)).wakeTick]
    exact hle

/-- A node that does not change. -/
theorem NodeKept.of_eq (h : Queues s ready sleepers moved) (hu : u ∈ registered s)
    (hcurrent : s'.core.current = s.core.current) (heq : s'.task u = s.task u) :
    NodeKept s s' moved u := by
  have hsound := h.registry.sound u hu
  refine ⟨?_, ?_, ?_, ?_, ?_, fun _ => ?_, ?_, fun hm => ?_⟩ <;> rw [heq]
  · exact hsound.quantum
  · rw [hcurrent]
    exact hsound.depth
  · rw [hcurrent]
    exact (h.settled u hu hm).running

/-- The invariant of the queues does not depend on the clock, the counters and the request. -/
theorem Queues.of_core (h : Queues s ready sleepers moved) (now ticks switches : Nat)
    (reschedule : Bool) :
    Queues { s with core := { s.core with now, ticks, switches, reschedule } } ready
      sleepers moved := by
  exact h.retain ⟨⟨rfl, rfl, rfl, rfl, rfl, rfl, rfl⟩, rfl, rfl, rfl⟩
    (fun u hu => .of_eq h hu rfl rfl) h.idle_state

/-- A node that is not registered may change in any way. -/
theorem Queues.write (h : Queues s ready sleepers moved) (ht : t ∉ registered s)
    (node : SchedTask) :
    Queues (s.setTask t node) ready sleepers moved := by
  have hsame : ∀ u ∈ registered s, (s.setTask t node).task u = s.task u :=
    fun u hu => setTask_of_ne fun heq => ht (heq ▸ hu)
  refine h.retain ⟨⟨rfl, rfl, rfl, rfl, rfl, rfl, rfl⟩, rfl, rfl, rfl⟩
    (fun u hu => .of_eq h hu rfl (hsame u hu)) ?_
  rw [hsame _ h.registry.idle]
  exact h.idle_state

/-- The registry gains or loses a task that is in no list; if it is registered afterwards, it is on
its way. -/
theorem Queues.reregister {tasks : Nat → Nat} {nextId taskCount : Nat}
    (h : Queues s ready sleepers 0)
    (hreg : Registry s') (hcore : s'.core = { s.core with tasks, nextId, taskCount })
    (hothers : ∀ u, u ≠ t → s'.task u = s.task u)
    (hset : ∀ u, u ≠ t → (u ∈ registered s' ↔ u ∈ registered s)) (hidle : s.core.idle ≠ t)
    (hready : t ∉ ready) (hsleep : t ∉ sleepers) (hmoved : t ∈ registered s' → moved' = t)
    (hout : ∀ u ∈ registered s', u ≠ t → u ≠ moved') : Queues s' ready sleepers moved' := by
  have hidleNode := hothers _ hidle
  have hlist : ∀ {p : Nat} {l : List Nat}, t ∉ l → Segment 0 s.next p l 0 →
      Segment 0 s'.next p l 0 := fun hnot hseg =>
    hseg.congr fun u hu => congrArg SchedTask.next (hothers u fun heq => hnot (heq ▸ hu))
  -- A task in a list is none of those whose registration changes.
  have hmem : ∀ {l : List Nat} {p : SchedTask → Nat → Prop},
      t ∉ l → (∀ u, u ∈ l ↔ u ∈ registered s ∧ u ≠ 0 ∧ p (s.task u) u) →
      ∀ u, u ∈ l ↔ u ∈ registered s' ∧ u ≠ moved' ∧ p (s'.task u) u := by
    intro l p hnot hl u
    by_cases hut : u = t
    · rw [hut]
      exact iff_of_false hnot fun hc => hc.2.1 (hmoved hc.1).symm
    · rw [hl u, registered_and_ne_zero, hset u hut, hothers u hut]
      exact ⟨fun hc => ⟨hc.1, hout u ((hset u hut).2 hc.1) hut, hc.2⟩, fun hc => ⟨hc.1, hc.2.2⟩⟩
  obtain ⟨self, core, task⟩ := s'
  obtain rfl : core = _ := hcore
  refine ⟨hreg, fun u hu hum => ?_, hout _ hreg.idle hidle, ?_, ?_, hlist hready h.ready_list,
    h.ready_nodup, hmem (p := fun node u => u ≠ s.core.idle ∧ node.state = .ready) hready
    h.ready_iff, h.ready_tail, hlist hsleep h.sleep_list, h.sleep_nodup,
    hmem (p := fun node _ => node.state = .sleeping) hsleep h.sleep_iff,
    sorted_congr h.sleep_sorted hsleep fun u hu => congrArg SchedTask.wakeTick (hothers u hu)⟩
  · have hut : u ≠ t := fun heq => hum (heq.trans (hmoved (heq ▸ hu)).symm)
    have hold := (hset u hut).1 hu
    have hsettled := h.settled u hold (ne_zero_of_registered hold)
    refine ⟨?_, ?_, ?_⟩ <;> rw [hothers u hut]
    · exact hsettled.running
    · exact hsettled.awake
    · exact hsettled.loose
  · exact (congrArg SchedTask.state hidleNode).trans h.idle_state
  · exact (congrArg SchedTask.next hidleNode).trans h.idle_next

/-- The accounting of a task may change, and its preemption depth while it runs. -/
theorem Queues.account (h : Queues s ready sleepers moved)
    (howner : node.owner = (s.task t).owner) (hid : node.id = (s.task t).id)
    (hstate : node.state = (s.task t).state) (hnext : node.next = (s.task t).next)
    (hwake : node.wakeTick = (s.task t).wakeTick)
    (hquantum : (s.task t).quantumLeft ≤ s.core.quantumTicks →
    node.quantumLeft ≤ s.core.quantumTicks)
    (hdepth : t ∈ registered s → node.preemptDepth ≠ 0 → t = s.core.current ∧
    node.state = .running) :
    Queues (s.setTask t node) ready sleepers moved := by
  have hkept : ∀ u, ((s.setTask t node).task u).state = (s.task u).state := by
    intro u
    by_cases hut : u = t
    · rw [hut, setTask_self, hstate]
    · rw [setTask_of_ne hut]
  refine h.retain ⟨⟨rfl, rfl, rfl, rfl, rfl, rfl, rfl⟩, rfl, rfl, rfl⟩ (fun u hu => ?_)
    ((hkept _).trans h.idle_state)
  have hsound := h.registry.sound u hu
  have hrunning : u ≠ moved → ((s.setTask t node).task u).state = .running →
      u = s.core.current := by
    intro hm
    rw [hkept]
    exact (h.settled u hu hm).running
  by_cases hut : u = t
  · subst hut
    refine ⟨?_, ?_, ?_, ?_, ?_, fun _ => hkept u, ?_, hrunning⟩ <;> rw [setTask_self]
    · exact howner
    · exact hid
    · exact hnext
    · exact hwake
    · exact hquantum hsound.quantum
    · exact hdepth hu
  · refine ⟨?_, ?_, ?_, ?_, ?_, fun _ => hkept u, ?_, hrunning⟩ <;> rw [setTask_of_ne hut]
    · exact hsound.quantum
    · exact hsound.depth

/-! ## The current task

A selection passes through a core without a current task: `current` is 0. -/

/-- Nobody is running, and preemption is nowhere off. -/
def AllStopped (s : SchedMachine) : Prop :=
  ∀ u, u ∈ registered s → u ≠ s.core.idle → (s.task u).state ≠ .running ∧
    (s.task u).preemptDepth = 0

/-- When the current task does not run, nobody does. -/
theorem Queues.allStopped (h : Queues s ready sleepers 0) (hruns : s.currentRuns = false) :
    AllStopped s := by
  rw [not_currentRuns_iff] at hruns
  intro u hu _
  have hstop : (s.task u).state ≠ .running := by
    intro hstate
    rw [(h.settled u hu (ne_zero_of_registered hu)).running hstate] at hstate
    exact hruns hstate
  exact ⟨hstop, (h.registry.sound u hu).depth_eq_zero (Or.inr hstop)⟩

/-- The current task, which does not run, ceases to be the current one. -/
theorem Queues.leave (h : Queues s ready sleepers 0) (hruns : s.currentRuns = false) :
    Queues { s with core := { s.core with current := 0 } } ready sleepers 0 := by
  have hstopped := h.allStopped hruns
  rw [not_currentRuns_iff] at hruns
  have hidle : s.core.idle ≠ s.core.current := by
    intro heq
    have hstate := h.idle_state
    rw [if_pos heq, heq] at hstate
    exact hruns hstate
  have hidleState : (s.task s.core.idle).state = .ready := by
    rw [h.idle_state, if_neg hidle]
  refine h.retain ⟨⟨rfl, rfl, rfl, rfl, rfl, rfl, rfl⟩, rfl, rfl, rfl⟩ (fun u hu => ?_) ?_
  · have hstop : (s.task u).state ≠ .running ∧ (s.task u).preemptDepth = 0 := by
      by_cases hui : u = s.core.idle
      · rw [hui, hidleState]
        exact ⟨nofun, (h.registry.sound _ h.registry.idle).depth_eq_zero (Or.inl hidle)⟩
      · exact hstopped u hu hui
    exact ⟨rfl, rfl, rfl, rfl, (h.registry.sound u hu).quantum, fun _ => rfl,
      fun hne => absurd hstop.2 hne, fun _ hrun => absurd hrun hstop.1⟩
  · rw [if_neg (ne_zero_of_registered h.registry.idle)]
    exact hidleState

/-- The task on its way becomes the current one, and runs. -/
theorem Queues.enter (h : Queues s ready sleepers t) (ht : t ∈ registered s)
    (hcurrent : s.core.current = 0) (hstate : (s.task t).state = .running)
    (hnext : (s.task t).next = 0) (hwake : (s.task t).wakeTick = 0) :
    Queues { s with core := { s.core with current := t } } ready sleepers 0 := by
  have hq : Queues { s with core := { s.core with current := t } } ready sleepers t := by
    refine h.retain ⟨⟨rfl, rfl, rfl, rfl, rfl, rfl, rfl⟩, rfl, rfl, rfl⟩ (fun u hu => ?_) ?_
    · -- Without a current task nobody else runs, and nobody has preemption off.
      have hsound := h.registry.sound u hu
      have hu0 : u ≠ s.core.current := hcurrent ▸ ne_zero_of_registered hu
      exact ⟨rfl, rfl, rfl, rfl, hsound.quantum, fun _ => rfl,
        fun hne => absurd (hsound.depth_eq_zero (Or.inl hu0)) hne,
        fun hm hrun => absurd ((h.settled u hu hm).running hrun) hu0⟩
    · have hidleState := h.idle_state
      rw [hcurrent, if_neg (ne_zero_of_registered h.registry.idle)] at hidleState
      rw [if_neg h.idle_ne]
      exact hidleState
  refine hq.settle ht ⟨fun _ => rfl, fun _ => hwake, fun _ _ => hnext⟩ ?_ ?_
  · exact fun hc => SchedState.noConfusion (hstate.symm.trans hc)
  · exact fun hc => SchedState.noConfusion (hstate.symm.trans hc)

/-- The idle task, which is in no list, becomes the current one or ceases to be. -/
theorem Queues.setIdle (h : Queues s ready sleepers 0) (node : SchedTask) (current : Nat)
    (hstopped : AllStopped s) (howner : node.owner = (s.task s.core.idle).owner)
    (hid : node.id = (s.task s.core.idle).id) (hquantum : node.quantumLeft ≤ s.core.quantumTicks)
    (hdepth : node.preemptDepth = 0) (hnext : node.next = 0) (hwake : node.wakeTick = 0)
    (hstate : node.state = if s.core.idle = current then .running else .ready) :
    Queues { s.setTask s.core.idle node with core := { s.core with current } }
      ready sleepers 0 := by
  have hself := setTask_self s s.core.idle node
  have hawake : (s.task s.core.idle).wakeTick = 0 :=
    (h.settled _ h.registry.idle h.idle_ne).awake h.idle_awake
  refine h.retain ⟨⟨rfl, rfl, rfl, rfl, rfl, rfl, rfl⟩, rfl, rfl, rfl⟩ (fun u hu => ?_) ?_
  · by_cases hui : u = s.core.idle
    · subst hui
      refine ⟨?_, ?_, ?_, ?_, ?_, fun hne => absurd rfl hne, ?_, fun _ => ?_⟩ <;> simp only [hself]
      · exact howner
      · exact hid
      · rw [hnext, h.idle_next]
      · rw [hwake, hawake]
      · exact hquantum
      · exact fun hne => absurd hdepth hne
      · intro hrun
        by_contra hne
        rw [hstate, if_neg hne] at hrun
        cases hrun
    · obtain ⟨hstop, hzero⟩ := hstopped u hu hui
      have hother : (s.setTask s.core.idle node).task u = s.task u := setTask_of_ne hui
      refine ⟨?_, ?_, ?_, ?_, ?_, fun _ => ?_, ?_, fun _ => ?_⟩ <;> simp only [hother]
      · exact (h.registry.sound u hu).quantum
      · exact fun hne => absurd hzero hne
      · exact fun hrun => absurd hrun hstop
  · simp only [hself]
    exact hstate

end Utamo.Sched
