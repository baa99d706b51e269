import Utamo.Lib.Ledger
import Utamo.Sched.Core

/-!
# Queues in order

`Queues s ready sleepers moved` describes a core whose FIFO consists of the tasks `ready` and whose
sleep list consists of the tasks `sleepers`, while one task `moved` is on its way from one place to
another (0 for none). The operations take a task out, change it and put it back; each of these steps
keeps `Queues`. Between operations nothing is on its way, and no deadline has passed: `SchedInv`.

A core in order is valid (`schedCoreValidate_of_inv`).
-/

set_option autoImplicit false

namespace Utamo.Sched

open Lib Lib.Ledger

variable {t i : Nat} {s : SchedMachine} {l : List Nat}

/-- A slot of the registry that holds a task. -/
def slotUsed (task : Nat) : Bool := task ≠ 0

/-- The tasks of the registry. -/
def registered (s : SchedMachine) : Set Nat := keys slotUsed schedMaxTasks id s.core.tasks

/-- What holds of every registered task. -/
structure TaskSound (s : SchedMachine) (t : Nat) : Prop where
  owner : (s.task t).owner = s.self
  id_lt : (s.task t).id < s.core.nextId
  idle_iff : (s.task t).id = 0 ↔ t = s.core.idle
  quantum : (s.task t).quantumLeft ≤ s.core.quantumTicks
  depth : (s.task t).preemptDepth ≠ 0 → t = s.core.current ∧ (s.task t).state = .running

/-- What holds of a registered task that is not on its way. -/
structure TaskSettled (s : SchedMachine) (t : Nat) : Prop where
  running : (s.task t).state = .running → t = s.core.current
  awake : (s.task t).state ≠ .sleeping → (s.task t).wakeTick = 0
  loose : (s.task t).state ≠ .ready → (s.task t).state ≠ .sleeping → (s.task t).next = 0

/-- The registry: 64 slots with distinct tasks, among them the idle task. -/
structure Registry (s : SchedMachine) : Prop where
  initialized : s.core.initialized = true
  self : s.self ≠ 0
  quantum : s.core.quantumTicks ≠ 0
  nextId : 2 ≤ s.core.nextId
  nextId_le : s.core.nextId ≤ uint64Max
  distinct : Distinct slotUsed schedMaxTasks id s.core.tasks
  count : s.core.taskCount = (occupied slotUsed schedMaxTasks s.core.tasks).card
  ids : ∀ t u, t ∈ registered s → u ∈ registered s → (s.task t).id = (s.task u).id → t = u
  idle : s.core.idle ∈ registered s
  sound : ∀ t, t ∈ registered s → TaskSound s t

/-- The FIFO and the sleep list, with the task `moved` on its way. -/
structure Queues (s : SchedMachine) (ready sleepers : List Nat) (moved : Nat) : Prop where
  registry : Registry s
  settled : ∀ t, t ∈ registered s → t ≠ moved → TaskSettled s t
  idle_ne : s.core.idle ≠ moved
  idle_state :
    (s.task s.core.idle).state = if s.core.idle = s.core.current then .running else .ready
  idle_next : (s.task s.core.idle).next = 0
  ready_list : Segment 0 s.next s.core.readyHead ready 0
  ready_nodup : ready.Nodup
  ready_iff : ∀ t, t ∈ ready ↔
    t ∈ registered s ∧ t ≠ moved ∧ t ≠ s.core.idle ∧ (s.task t).state = .ready
  ready_tail : s.core.readyTail = ready.getLast?.getD 0
  sleep_list : Segment 0 s.next s.core.sleepHead sleepers 0
  sleep_nodup : sleepers.Nodup
  sleep_iff : ∀ t, t ∈ sleepers ↔ t ∈ registered s ∧ t ≠ moved ∧ (s.task t).state = .sleeping
  sleep_sorted : sleepers.Pairwise fun t u => (s.task t).wakeTick ≤ (s.task u).wakeTick

/-- A core between two operations. -/
structure SchedInv (s : SchedMachine) (ready sleepers : List Nat) : Prop where
  queues : Queues s ready sleepers 0
  current : s.core.current ∈ registered s
  pending : s.currentRuns = false → s.core.reschedule = true
  deadlines : ∀ t ∈ sleepers, s.core.now < (s.task t).wakeTick

theorem slotUsed_iff : slotUsed t = true ↔ t ≠ 0 := decide_eq_true_iff

theorem currentRuns_iff :
    s.currentRuns = true ↔ (s.task s.core.current).state = .running := decide_eq_true_iff

theorem not_currentRuns_iff :
    s.currentRuns = false ↔ (s.task s.core.current).state ≠ .running := decide_eq_false_iff_not

theorem ne_zero_of_registered (h : t ∈ registered s) : t ≠ 0 := by
  obtain ⟨i, -, hused, rfl⟩ := h
  exact slotUsed_iff.1 hused

/-- Only the current task can have disabled preemption, and only while it runs. -/
theorem TaskSound.depth_eq_zero (h : TaskSound s t)
    (hother : t ≠ s.core.current ∨ (s.task t).state ≠ .running) : (s.task t).preemptDepth = 0 := by
  by_contra hne
  obtain ⟨hcurrent, hruns⟩ := h.depth hne
  exact hother.elim (fun hc => hc hcurrent) fun hc => hc hruns

section Membership

variable {s : SchedMachine} {ready sleepers : List Nat} {moved t : Nat}

/-- The idle task is ready or runs. -/
theorem Queues.idle_awake (h : Queues s ready sleepers moved) :
    (s.task s.core.idle).state ≠ .sleeping := by
  rw [h.idle_state]
  split <;> simp

theorem Queues.notMem_ready (h : Queues s ready sleepers moved)
    (hstate : (s.task t).state ≠ .ready) :
    t ∉ ready := fun hmem => hstate ((h.ready_iff t).1 hmem).2.2.2

theorem Queues.notMem_sleepers (h : Queues s ready sleepers moved)
    (hstate : (s.task t).state ≠ .sleeping) : t ∉ sleepers :=
  fun hmem => hstate ((h.sleep_iff t).1 hmem).2.2

/-- The idle task is in neither list. -/
theorem Queues.idle_notMem (h : Queues s ready sleepers moved) :
    s.core.idle ∉ ready ∧ s.core.idle ∉ sleepers :=
  ⟨fun hmem => ((h.ready_iff _).1 hmem).2.2.1 rfl, h.notMem_sleepers h.idle_awake⟩

end Membership

theorem slot_registered (hi : i < schedMaxTasks)
    (hne : s.core.tasks i ≠ 0) : s.core.tasks i ∈ registered s :=
  ⟨i, hi, slotUsed_iff.2 hne, rfl⟩

/-- `task_slot` finds the slot of a registered task. -/
theorem taskSlot_cases (s : SchedMachine) (t : Nat) :
    (t ∉ registered s ∧ taskSlot s.core t = schedMaxTasks) ∨
      (t ∈ registered s ∧ taskSlot s.core t < schedMaxTasks ∧
        s.core.tasks (taskSlot s.core t) = t) := by
  by_cases ht : t = 0
  · refine Or.inl ⟨fun hmem => ne_zero_of_registered hmem ht, ?_⟩
    rw [taskSlot, if_neg (not_not.2 ht)]
  rw [taskSlot, if_pos ht]
  rcases firstIndex_cases 0 schedMaxTasks fun i => decide (s.core.tasks i = t) with
    ⟨heq, hnone⟩ | ⟨i, heq, -, hi, htest⟩
  · refine Or.inl ⟨?_, heq⟩
    rintro ⟨i, hi, -, hti⟩
    exact of_decide_eq_false (hnone i (Nat.zero_le i) hi) hti
  · have hti := of_decide_eq_true htest
    rw [heq]
    exact Or.inr ⟨hti ▸ slot_registered hi (hti ▸ ht), hi, hti⟩

theorem taskSlot_eq_max :
    taskSlot s.core t = schedMaxTasks ↔ t ∉ registered s := by
  rcases taskSlot_cases s t with ⟨hnot, heq⟩ | ⟨hmem, hlt, -⟩
  · exact iff_of_true heq hnot
  · exact iff_of_false (Nat.ne_of_lt hlt) (not_not.2 hmem)

/-- The slot that `task_slot` finds. -/
theorem taskSlot_spec (h : t ∈ registered s) :
    taskSlot s.core t < schedMaxTasks ∧ s.core.tasks (taskSlot s.core t) = t :=
  (taskSlot_cases s t).elim (fun hc => absurd h hc.1) And.right

/-! ## Validation -/

section Validate

variable {s : SchedMachine} {ready sleepers : List Nat}

/-- The slots that the first loop of `sched_core_validate` counts as ready. -/
def countsReady (s : SchedMachine) (t : Nat) : Bool :=
  slotUsed t ∧ t ≠ s.core.idle ∧ (s.task t).state = .ready

/-- The slots that it counts as sleeping. -/
def countsSleeping (s : SchedMachine) (t : Nat) : Bool := slotUsed t ∧ (s.task t).state = .sleeping

/-- The slots that it counts as running. -/
def countsRunning (s : SchedMachine) (t : Nat) : Bool := slotUsed t ∧ (s.task t).state = .running

/-- The counters below a slot. -/
def countsBelow (s : SchedMachine) (i : Nat) : TaskCounts where
  count := (occupied slotUsed i s.core.tasks).card
  ready := (occupied (countsReady s) i s.core.tasks).card
  sleep := (occupied (countsSleeping s) i s.core.tasks).card
  running := (occupied (countsRunning s) i s.core.tasks).card

theorem taskRegistered_of_queues (h : Queues s ready sleepers 0) (hi : i < schedMaxTasks)
    (hne : s.core.tasks i ≠ 0) : taskRegistered s i = true := by
  have hmem := slot_registered hi hne
  have hsound := h.registry.sound _ hmem
  have hother : anyRange 0 i (fun j => s.core.tasks j ≠ 0 ∧ (s.core.tasks j = s.core.tasks i ∨
      (s.task (s.core.tasks j)).id = (s.task (s.core.tasks i)).id)) = false := by
    rw [anyRange_eq_false]
    intro j _ hj
    rw [decide_eq_false_iff_not]
    rintro ⟨hjne, hsame⟩
    have hjmem := slot_registered (hj.trans hi) hjne
    have htask : s.core.tasks j = s.core.tasks i := by
      rcases hsame with hsame | hsame
      · exact hsame
      · exact h.registry.ids _ _ hjmem hmem hsame
    have hslot :=
      h.registry.distinct j i (hj.trans hi) hi (slotUsed_iff.2 hjne) (slotUsed_iff.2 hne) htask
    omega
  have hbase : ¬ ((s.task (s.core.tasks i)).owner ≠ s.self ∨
      s.core.nextId ≤ (s.task (s.core.tasks i)).id ∨
      s.core.quantumTicks < (s.task (s.core.tasks i)).quantumLeft ∨
      (s.core.tasks i ≠ s.core.current ∧ (s.task (s.core.tasks i)).preemptDepth ≠ 0)) := by
    rintro (h1 | h1 | h1 | ⟨h1, h2⟩)
    · exact h1 hsound.owner
    · exact absurd hsound.id_lt (Nat.not_lt.2 h1)
    · exact absurd hsound.quantum (Nat.not_le.2 h1)
    · exact h1 (hsound.depth h2).1
  rw [taskRegistered]
  simp only [if_neg hbase, hother, Bool.false_eq_true, if_false]
  split
  · rename_i hidle
    have hid := hsound.idle_iff.2 hidle
    rw [decide_eq_true_eq, hid, hidle, h.idle_next, h.idle_state]
    simp [(h.settled _ h.registry.idle h.idle_ne).awake h.idle_awake]
  · rename_i hidle
    rw [decide_eq_true_eq]
    exact fun h0 => hidle (hsound.idle_iff.1 h0)

/-- One round of the first loop of `sched_core_validate`. -/
theorem validateTask_of_inv (h : SchedInv s ready sleepers) (hi : i < schedMaxTasks) :
    validateTask s i (countsBelow s i) = some (countsBelow s (i + 1)) := by
  have hsucc : countsBelow s (i + 1) = TaskCounts.mk
      ((countsBelow s i).count + if slotUsed (s.core.tasks i) = true then 1 else 0)
      ((countsBelow s i).ready + if countsReady s (s.core.tasks i) = true then 1 else 0)
      ((countsBelow s i).sleep + if countsSleeping s (s.core.tasks i) = true then 1 else 0)
      ((countsBelow s i).running + if countsRunning s (s.core.tasks i) = true then 1 else 0) := by
    simp only [countsBelow, card_occupied_succ]
  rw [hsucc, validateTask]
  generalize countsBelow s i = counts
  simp only
  by_cases hzero : s.core.tasks i = 0
  · simp [hzero, slotUsed, countsReady, countsSleeping, countsRunning]
  · have hmem := slot_registered hi hzero
    have hsound := h.queues.registry.sound _ hmem
    have hsettled := h.queues.settled _ hmem (ne_zero_of_registered hmem)
    have hreg := taskRegistered_of_queues h.queues hi hzero
    have hdepth : (s.task (s.core.tasks i)).state ≠ .running →
        (s.task (s.core.tasks i)).preemptDepth = 0 :=
          fun hstate => hsound.depth_eq_zero (Or.inr hstate)
    rw [if_neg hzero, hreg]
    simp only [not_true_eq_false, if_false, countsReady, countsSleeping, countsRunning, slotUsed,
      hzero, not_false_eq_true, decide_true, true_and, ne_eq]
    -- What the loop requires of a state is what the invariant says of it.
    cases hstate : (s.task (s.core.tasks i)).state with
    | running =>
      have hcurrent := hsettled.running hstate
      have hwake := hsettled.awake (by rw [hstate]; simp)
      have hnext := hsettled.loose (by rw [hstate]; simp) (by rw [hstate]; simp)
      simp [hcurrent] at hnext hwake ⊢
      simp [hnext, hwake]
    | ready =>
      have hwake := hsettled.awake (by rw [hstate]; simp)
      simp only [hwake, not_true_eq_false, if_false, and_true]
      by_cases hidle : s.core.tasks i = s.core.idle
      · simp [hidle]
      · simp [hidle]
    | sleeping =>
      have hlist : s.core.tasks i ∈ sleepers :=
        (h.queues.sleep_iff _).2 ⟨hmem, ne_zero_of_registered hmem, hstate⟩
      have hlate := h.deadlines _ hlist
      have hd := hdepth (by rw [hstate]; simp)
      have hok : ¬ ((s.task (s.core.tasks i)).wakeTick ≤ s.core.now ∨
          ¬ (s.task (s.core.tasks i)).preemptDepth = 0) := by
        rintro (h1 | h1)
        · omega
        · exact h1 hd
      simp [hok]
    | blocked =>
      have hd := hdepth (by rw [hstate]; simp)
      have hwake := hsettled.awake (by rw [hstate]; simp)
      have hnext := hsettled.loose (by rw [hstate]; simp) (by rw [hstate]; simp)
      simp [hd, hwake, hnext]
    | zombie =>
      have hd := hdepth (by rw [hstate]; simp)
      have hwake := hsettled.awake (by rw [hstate]; simp)
      have hnext := hsettled.loose (by rw [hstate]; simp) (by rw [hstate]; simp)
      simp [hd, hwake, hnext]

/-- The loop over the ready FIFO. -/
theorem validateReady_eq {p q last : Nat} (h : Segment 0 s.next p l q)
    (hready : ∀ t ∈ l, t ∈ registered s ∧ t ≠ s.core.idle ∧ (s.task t).state = .ready) :
    validateReady s l.length p last = some (q, l.getLast?.getD last) := by
  induction l generalizing p last with
  | nil =>
    obtain rfl : p = q := h
    rfl
  | cons t l ih =>
    obtain ⟨rfl, -, hrest⟩ := h
    obtain ⟨hreg, hidle, hstate⟩ := hready p List.mem_cons_self
    rw [List.length_cons, validateReady, if_neg]
    · rw [ih hrest fun u hu => hready u (List.mem_cons_of_mem p hu)]
      rw [List.getLast?_cons, Option.getD_some]
    · rintro (h1 | h1 | h1)
      · exact taskSlot_eq_max.1 h1 hreg
      · exact hidle h1
      · exact h1 hstate

/-- The loop over the sleepers. -/
theorem validateSleep_eq {p q deadline : Nat} (h : Segment 0 s.next p l q)
    (hsleep : ∀ t ∈ l, t ∈ registered s ∧ (s.task t).state = .sleeping)
    (hsorted : l.Pairwise fun t u => (s.task t).wakeTick ≤ (s.task u).wakeTick)
    (hfirst : ∀ t ∈ l, deadline ≤ (s.task t).wakeTick) :
    validateSleep s l.length p deadline = some q := by
  induction l generalizing p deadline with
  | nil =>
    obtain rfl : p = q := h
    rfl
  | cons t l ih =>
    obtain ⟨rfl, -, hrest⟩ := h
    obtain ⟨hreg, hstate⟩ := hsleep p List.mem_cons_self
    rw [List.pairwise_cons] at hsorted
    rw [List.length_cons, validateSleep, if_neg]
    · exact ih hrest (fun u hu => hsleep u (List.mem_cons_of_mem p hu)) hsorted.2 hsorted.1
    · rintro (h1 | h1 | h1)
      · exact taskSlot_eq_max.1 h1 hreg
      · exact h1 hstate
      · exact absurd (hfirst p List.mem_cons_self) (Nat.not_le.2 h1)

/-- A list of the registered tasks with a property has as many of them as the loop counts. -/
theorem Registry.card_counted (h : Registry s) (p : Nat → Prop) [DecidablePred p]
    (hnodup : l.Nodup) (hmem : ∀ t, t ∈ l ↔ t ∈ registered s ∧ p t) :
    (occupied (fun t => decide (slotUsed t = true ∧ p t)) schedMaxTasks s.core.tasks).card =
      l.length := by
  have hdist := h.distinct.of_used fun t (ht : decide (slotUsed t = true ∧ p t) = true) =>
    (of_decide_eq_true ht).1
  refine card_occupied_eq_length hdist hnodup fun t => (hmem t).trans ?_
  constructor
  · rintro ⟨⟨i, hi, hused, rfl⟩, hp⟩
    exact ⟨i, hi, decide_eq_true ⟨hused, hp⟩, rfl⟩
  · rintro ⟨i, hi, hcounts, rfl⟩
    obtain ⟨hused, hp⟩ := of_decide_eq_true hcounts
    exact ⟨⟨i, hi, hused, rfl⟩, hp⟩

/-- A registered task is not the one on its way if there is none. -/
theorem registered_and_ne_zero {p : Prop} :
    t ∈ registered s ∧ t ≠ 0 ∧ p ↔ t ∈ registered s ∧ p :=
  and_congr_right fun ht => and_iff_right (ne_zero_of_registered ht)

theorem Queues.ready_count (h : Queues s ready sleepers 0) :
    (occupied (countsReady s) schedMaxTasks s.core.tasks).card = ready.length :=
  h.registry.card_counted _ h.ready_nodup fun t => (h.ready_iff t).trans registered_and_ne_zero

theorem Queues.ready_length_le (h : Queues s ready sleepers 0) : ready.length ≤ schedMaxTasks :=
  h.ready_count ▸ card_occupied_le _ _ _

theorem Queues.sleep_count (h : Queues s ready sleepers 0) :
    (occupied (countsSleeping s) schedMaxTasks s.core.tasks).card = sleepers.length :=
  h.registry.card_counted _ h.sleep_nodup fun t => (h.sleep_iff t).trans registered_and_ne_zero

theorem Queues.sleep_length_le (h : Queues s ready sleepers 0) : sleepers.length ≤ schedMaxTasks :=
  h.sleep_count ▸ card_occupied_le _ _ _

/-- Only the current task can be running. -/
theorem Queues.running_count (h : Queues s ready sleepers 0)
    (hcurrent : s.core.current ∈ registered s) :
    (occupied (countsRunning s) schedMaxTasks s.core.tasks).card =
      if s.currentRuns then 1 else 0 := by
  have honly : ∀ t, t ∈ registered s ∧ (s.task t).state = .running → t = s.core.current :=
    fun t ht => (h.settled t ht.1 (ne_zero_of_registered ht.1)).running ht.2
  cases hruns : s.currentRuns with
  | true =>
    refine h.registry.card_counted _ (List.nodup_singleton s.core.current) fun t => ?_
    rw [List.mem_singleton]
    refine ⟨?_, honly t⟩
    rintro rfl
    exact ⟨hcurrent, currentRuns_iff.1 hruns⟩
  | false =>
    refine h.registry.card_counted _ List.nodup_nil fun t =>
      iff_of_false List.not_mem_nil fun ht => ?_
    exact not_currentRuns_iff.1 hruns (honly t ht ▸ ht.2)

/-- A core in order is valid. -/
theorem schedCoreValidate_of_inv (h : SchedInv s ready sleepers) : schedCoreValidate s = true := by
  have hq := h.queues
  have hreg := hq.registry
  obtain ⟨counts, hloop, rfl⟩ :
      ∃ counts, forRangeM 0 schedMaxTasks (validateTask s) ⟨0, 0, 0, 0⟩ = some counts ∧
        counts = countsBelow s schedMaxTasks := by
    refine forRangeM_invariant (P := fun i counts => counts = countsBelow s i) (by decide) rfl ?_
    rintro i counts - hi rfl
    exact ⟨_, validateTask_of_inv h hi, rfl⟩
  have hcount : 0 < s.core.taskCount ∧ s.core.taskCount ≤ schedMaxTasks := by
    rw [hreg.count]
    refine ⟨?_, card_occupied_le _ _ _⟩
    obtain ⟨i, hi, hused, -⟩ := h.current
    exact Finset.card_pos.2 ⟨i, mem_occupied.2 ⟨hi, hused⟩⟩
  have hargs : ¬ (¬ s.core.initialized = true ∨ s.core.quantumTicks = 0 ∨ s.core.taskCount = 0 ∨
      schedMaxTasks < s.core.taskCount ∨ s.core.nextId < 2 ∨
      taskSlot s.core s.core.idle = schedMaxTasks ∨
      taskSlot s.core s.core.current = schedMaxTasks) := by
    rintro (h1 | h1 | h1 | h1 | h1 | h1 | h1)
    · exact h1 hreg.initialized
    · exact hreg.quantum h1
    · omega
    · omega
    · exact absurd hreg.nextId (Nat.not_le.2 h1)
    · exact taskSlot_eq_max.1 h1 hreg.idle
    · exact taskSlot_eq_max.1 h1 h.current
  have hpending : ¬ ((countsBelow s schedMaxTasks).count ≠ s.core.taskCount ∨
      (countsBelow s schedMaxTasks).running ≠ (if s.currentRuns then 1 else 0) ∨
      ((countsBelow s schedMaxTasks).running = 0 ∧ ¬ s.core.reschedule = true)) := by
    rintro (h1 | h1 | ⟨h1, h2⟩)
    · exact h1 hreg.count.symm
    · exact h1 (hq.running_count h.current)
    · refine h2 (h.pending ?_)
      have hrunning : (countsBelow s schedMaxTasks).running = _ := hq.running_count h.current
      rw [h1] at hrunning
      cases hruns : s.currentRuns with
      | false => rfl
      | true =>
        rw [hruns] at hrunning
        cases hrunning
  have hready : validateReady s (countsBelow s schedMaxTasks).ready s.core.readyHead 0 =
      some (0, s.core.readyTail) := by
    rw [show (countsBelow s schedMaxTasks).ready = _ from hq.ready_count, hq.ready_tail]
    refine validateReady_eq hq.ready_list fun t ht => ?_
    obtain ⟨h1, -, h2⟩ := (hq.ready_iff t).1 ht
    exact ⟨h1, h2⟩
  have hsleep : validateSleep s (countsBelow s schedMaxTasks).sleep
      s.core.sleepHead 0 = some 0 := by
    rw [show (countsBelow s schedMaxTasks).sleep = _ from hq.sleep_count]
    refine validateSleep_eq hq.sleep_list (fun t ht => ?_) hq.sleep_sorted fun t _ => Nat.zero_le _
    obtain ⟨h1, -, h2⟩ := (hq.sleep_iff t).1 ht
    exact ⟨h1, h2⟩
  rw [schedCoreValidate]
  simp only [if_neg hargs, hloop, if_neg hpending, hready, hsleep]
  simp

end Validate

end Utamo.Sched
