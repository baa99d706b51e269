import Utamo.Sched.Runs

/-!
# Who runs next

Two consequences of the invariant of the runs. The FIFO is first in, first out over a whole run, so
a task waits for the selections that its place in the FIFO says and for no other
(`sched_dispatch_order`). A sleeper sleeps until its deadline or until it is woken, and a tick
releases the sleepers in the order of their deadlines (`sched_sleep_order`).
-/

set_option autoImplicit false

namespace Utamo.Sched

open Lib

/-! ## Dispatch -/

section Dispatch

variable {s : SchedMachine} {r r' : SchedRun} {ready sleepers : List Nat}
  {call : SchedCall} {ok : Bool}

/-- A selection on a FIFO with a task takes one task off, and no other call takes one. -/
theorem departed_callLog (h : SchedInv s ready sleepers) (hready : ready ≠ []) :
    (departed (callLog s call ok)).length = callSelections s call := by
  cases call with
  | select force =>
    rcases schedCoreSelect_spec h force with ⟨hstays, -⟩ | ⟨hstays, s', hsel, -⟩
    · rw [callLog, callSelections, hstays]
      rfl
    · obtain ⟨t, rest, rfl⟩ := List.exists_cons_of_ne_nil hready
      have ht : t ≠ s.core.idle := ((h.queues.ready_iff t).1 List.mem_cons_self).2.2.1
      have hnext : (schedCoreSelect s force).2 = t := by
        rw [hsel]
        rfl
      simp only [callLog, callSelections, hstays, hnext, if_neg ht, Bool.false_eq_true, if_false]
      rw [departed_append, departed_map_enter]
      rfl
  | tick now =>
    cases ok with
    | false => rfl
    | true =>
      rw [callLog, departed_map_enter]
      rfl
  | add t => cases ok <;> rfl
  | wake t => cases ok <;> rfl
  | sleepCurrent delay => rfl
  | blockCurrent => rfl
  | exitCurrent => rfl
  | removeZombie t => rfl
  | preemptDisable => rfl
  | preemptEnable => rfl

/-- How far a run has come since `r`, as long as the first `k` tasks of the FIFO of `r` have not all
departed: every selection has taken off one of them. -/
structure Served (r : SchedRun) (k : Nat) (r' : SchedRun) : Prop where
  good : ∃ ready sleepers, GoodRun r' ready sleepers
  arrivals : entered r.log <+: entered r'.log
  selections : r.selections ≤ r'.selections
  departures : r'.selections ≤ r.selections + k →
    (departed r'.log).length = (departed r.log).length + (r'.selections - r.selections)

theorem Served.step {k : Nat} (hk : (departed r.log).length + k < (entered r.log).length)
    (h : Served r k r') {event : SchedEvent} {r'' : SchedRun} (hen : schedEnabled r' event)
    (hexec : schedExec r' event = some r'') : Served r k r'' := by
  obtain ⟨ready, sleepers, hgood⟩ := h.good
  cases event with
  | write t node =>
    cases hexec
    exact ⟨⟨ready, sleepers, hgood.write hen node⟩, h.arrivals, h.selections, h.departures⟩
  | call call =>
    obtain ⟨r₂, ok, ready', sleepers', hexec', -, hlog, hselections, -, hgood'⟩ := hgood.call call
    rw [hexec] at hexec'
    cases hexec'
    refine ⟨⟨ready', sleepers', hgood'⟩, ?_, ?_, fun hle => ?_⟩
    · rw [hlog, entered_append]
      exact h.arrivals.trans (List.prefix_append _ _)
    · rw [hselections]
      exact Nat.le_add_right_of_le h.selections
    · rw [hselections] at hle
      have hcount := h.departures (Nat.le_of_add_right_le hle)
      -- Fewer tasks have departed than had arrived at `r`, so the FIFO is not empty.
      have hready : ready ≠ [] := by
        rintro rfl
        have harrived := h.arrivals.length_le
        rw [hgood.history.entered_eq, List.append_nil] at harrived
        omega
      have hle' := h.selections
      rw [hlog, departed_append, List.length_append, departed_callLog hgood.inv hready, hcount,
        hselections]
      omega

theorem served_of_continues {k : Nat} (hgood : GoodRun r ready sleepers) (hk : k < ready.length)
    (h : SchedContinues r r') : Served r k r' := by
  have hcount : (departed r.log).length + k < (entered r.log).length := by
    rw [hgood.history.entered_eq, List.length_append]
    omega
  have hstart : ∀ r₀, r₀ = r → Served r k r₀ := by
    rintro r₀ rfl
    refine ⟨⟨ready, sleepers, hgood⟩, List.prefix_rfl, Nat.le_refl _, fun _ => ?_⟩
    rw [Nat.sub_self, Nat.add_zero]
  exact h.invariant hstart fun r₁ event r₂ h₁ hen hexec => h₁.step hcount hen hexec

/-- After `k` selections the task at position `k` is the first of the FIFO. -/
theorem Served.head {k t : Nat} (h : Served r k r') (hgood : GoodRun r ready sleepers)
    (ht : ready[k]? = some t) (hselections : r'.selections = r.selections + k)
    {ready' sleepers' : List Nat} (hgood' : GoodRun r' ready' sleepers') : ready'[0]? = some t := by
  have hcount := h.departures (Nat.le_of_eq hselections)
  have harrived : (entered r.log)[(departed r.log).length + k]? = some t := by
    rw [hgood.history.entered_eq, List.getElem?_append_right (Nat.le_add_right _ _),
      Nat.add_sub_cancel_left]
    exact ht
  obtain ⟨later, hlater⟩ := h.arrivals
  have harrived' : (entered r'.log)[(departed r'.log).length]? = some t := by
    have hlen : (departed r'.log).length = (departed r.log).length + k := by omega
    rw [hlen, ← hlater, List.getElem?_append_left]
    · exact harrived
    · exact (List.getElem?_eq_some_iff.1 harrived).1
  rw [hgood'.history.entered_eq, List.getElem?_append_right (Nat.le_refl _),
    Nat.sub_self] at harrived'
  exact harrived'

/-- A selection takes the idle task only if no other task is ready. -/
theorem fifo_empty_of_idle (h : SchedInv s ready sleepers) {force : Bool}
    (hstays : selectStays s force = false) (hidle : (schedCoreSelect s force).2 = s.core.idle) :
    readyQueue (requeueCurrent s) = [] := by
  rcases schedCoreSelect_spec h force with ⟨hstays', -⟩ | ⟨-, s', hsel, -⟩
  · rw [hstays] at hstays'
    cases hstays'
  · rw [hsel, selected] at hidle
    have hempty : ready ++ requeued s = [] := by
      have hne := h.fifo_ne_idle
      generalize ready ++ requeued s = queue at hidle hne ⊢
      cases queue with
      | nil => rfl
      | cons t rest => exact absurd hidle (hne t List.mem_cons_self)
    have hdepth : (s.task s.core.current).preemptDepth = 0 := by
      rw [selectStays, decide_eq_false_iff_not, not_or] at hstays
      exact not_not.1 hstays.1
    have hlist := (requeueCurrent_spec h hdepth).1.ready_list
    rw [hempty] at hlist
    exact hlist.follow_eq (Nat.zero_le _)

/-- The order of dispatch. Over a whole run the tasks that were dispatched and then those in the
FIFO are all arrivals in their order, and a task arrives again only after its dispatch. A selection
that is not cut short yields the idle task only from an empty FIFO; and it yields the task that
stood at position `k` of the FIFO at an earlier point if `k` such selections have passed since. -/
theorem sched_dispatch_order (h : SchedReachable r) :
    entered r.log = departed r.log ++ readyQueue r.sched ∧
    (∀ before between after t,
      r.log = before ++ .enter t :: (between ++ .enter t :: after) → .leave t ∈ between) ∧
    (∀ force, selectStays r.sched force = false →
      (schedCoreSelect r.sched force).2 = r.sched.core.idle →
      readyQueue (requeueCurrent r.sched) = []) ∧
    ∀ k t r' force, (readyQueue r.sched)[k]? = some t → SchedContinues r r' →
      r'.selections = r.selections + k → selectStays r'.sched force = false →
      (schedCoreSelect r'.sched force).2 = t := by
  obtain ⟨ready, sleepers, hgood⟩ := goodRun_of_reachable h
  rw [hgood.inv.readyQueue_eq]
  refine ⟨hgood.history.entered_eq, fun before between after t hlog => ?_,
    fun force hstays hidle => fifo_empty_of_idle hgood.inv hstays hidle,
    fun k t r' force ht hrun hselections hstays => ?_⟩
  · have hsplit : r.log = before ++ .enter t :: between ++ .enter t :: after := by
      rw [hlog, List.append_assoc, List.cons_append]
    exact hgood.history.leave_between hsplit
  · have hserved := served_of_continues hgood (List.getElem?_eq_some_iff.1 ht).1 hrun
    obtain ⟨ready', sleepers', hgood'⟩ := hserved.good
    have hhead := hserved.head hgood ht hselections hgood'
    rcases schedCoreSelect_spec hgood'.inv force with ⟨hstays', -⟩ | ⟨-, s', hsel, -⟩
    · rw [hstays] at hstays'
      cases hstays'
    · obtain ⟨rest, rfl⟩ : ∃ rest, ready' = t :: rest := by
        cases ready' with
        | nil => cases hhead
        | cons u rest =>
          cases hhead
          exact ⟨rest, rfl⟩
      rw [hsel]
      rfl

/-- Two new tasks: whatever the tick between the selections does, the second selection yields the
second of them. -/
theorem sched_dispatch_order_two : ∃ r r', SchedReachable r ∧ readyQueue r.sched = [24, 32] ∧
    SchedContinues r r' ∧ r'.selections = r.selections + 1 ∧
    (schedCoreSelect r'.sched true).2 = 32 := by
  let calls : List SchedCall := [.add 24, .add 32]
  let later : List SchedCall := [.sleepCurrent 1, .select false, .tick 1]
  have hready : readyQueue (tinyAfter calls).sched = [24, 32] := by decide +kernel
  have hselections : (tinyAfter (calls ++ later)).selections =
      (tinyAfter calls).selections + 1 := by decide +kernel
  have hstays : selectStays (tinyAfter (calls ++ later)).sched true = false := by decide +kernel
  have hreach := tinyAfter_reachable calls
  have hcontinues := tinyAfter_continues calls later
  obtain ⟨-, -, -, hserved⟩ := sched_dispatch_order hreach
  have hnext := hserved 1 32 _ true (by rw [hready]; rfl) hcontinues hselections hstays
  exact ⟨_, _, hreach, hready, hcontinues, hselections, hnext⟩

end Dispatch

/-! ## Sleep -/

section Sleep

variable {s : SchedMachine} {r r' : SchedRun} {ready sleepers : List Nat} {t deadline : Nat}

/-- The events that end the sleep of a task neither by waking it nor by the clock. -/
def letsSleep (t deadline : Nat) : SchedEvent → Prop
  | .call (.wake u) => u ≠ t
  | .call (.tick now) => now < deadline
  | _ => True

/-- The runs from `r` on in which nothing ends the sleep of a task. -/
def SleepContinues (t deadline : Nat) (r r' : SchedRun) : Prop :=
  Reachable (· = r) (fun r event => schedEnabled r event ∧ letsSleep t deadline event) schedExec r'

/-- A run in which a task sleeps until a deadline. -/
def Asleep (t deadline : Nat) (r : SchedRun) : Prop :=
  ∃ ready sleepers, GoodRun r ready sleepers ∧ t ∈ sleepers ∧ (r.sched.task t).wakeTick = deadline

theorem Asleep.state (h : Asleep t deadline r) : (r.sched.task t).state = .sleeping := by
  obtain ⟨ready, sleepers, hgood, ht, -⟩ := h
  exact ((hgood.inv.queues.sleep_iff t).1 ht).2.2

theorem Asleep.step (h : Asleep t deadline r) {event : SchedEvent} (hen : schedEnabled r event)
    (hsleep : letsSleep t deadline event) (hexec : schedExec r event = some r') :
    Asleep t deadline r' := by
  obtain ⟨ready, sleepers, hgood, ht, hwake⟩ := h
  cases event with
  | write u node =>
    cases hexec
    have htu : t ≠ u := fun heq => hen (heq ▸ ((hgood.inv.queues.sleep_iff t).1 ht).1)
    refine ⟨ready, sleepers, hgood.write hen node, ht, ?_⟩
    exact (congrArg SchedTask.wakeTick (setTask_of_ne htu)).trans hwake
  | call call =>
    obtain ⟨r₂, ok, ready', sleepers', hexec', -, -, -, hspec, hgood'⟩ := hgood.call call
    rw [hexec] at hexec'
    cases hexec'
    have ht' : t ∈ sleepers' := by
      refine hspec.stays t ht (fun hc => ?_) fun now hc => ?_
      · rw [hc] at hsleep
        exact hsleep rfl
      · rw [hc] at hsleep
        rw [hwake]
        exact hsleep
    exact ⟨ready', sleepers', hgood', ht', (hspec.deadline t ht ht').trans hwake⟩

theorem asleep_of_continues (h : Asleep t deadline r) (hrun : SleepContinues t deadline r r') :
    Asleep t deadline r' := by
  have hstart : ∀ r₀, r₀ = r → Asleep t deadline r₀ := by
    rintro r₀ rfl
    exact h
  exact hrun.invariant hstart fun r₁ event r₂ h₁ hen hexec => h₁.step hen.1 hen.2 hexec

/-- The first tick at or after its deadline puts a sleeper into the FIFO. -/
theorem Asleep.tick (h : Asleep t deadline r) {now : Nat} (hnow : deadline ≤ now) :
    ∃ s', schedCoreTick r.sched now = some (s', true) ∧ (s'.task t).state = .ready ∧
      t ∈ readyQueue s' := by
  obtain ⟨ready, sleepers, hgood, ht, hwake⟩ := h
  have hlate := hgood.inv.deadlines t ht
  rcases schedCoreTick_spec hgood.inv now with ⟨hpast, -⟩ | ⟨-, s', htick, hinv, -⟩
  · omega
  · have hmem := (mem_expired hgood.inv.queues.sleep_sorted).2 ⟨ht, hwake.trans_le hnow⟩
    have hready := (hinv.queues.ready_iff t).1 (List.mem_append_right _ hmem)
    refine ⟨s', htick, hready.2.2.2, ?_⟩
    rw [hinv.readyQueue_eq]
    exact List.mem_append_right _ hmem

/-- Sleep and its end. A task that goes to sleep has its deadline in the range of the clock; it
sleeps along every run that neither wakes it nor reaches the deadline, and then the first tick at
the deadline or later makes it ready. A tick appends to the FIFO exactly the sleepers whose deadline
has come, by deadline and, for equal deadlines, in the order in which they went to sleep. -/
theorem sched_sleep_order (h : SchedReachable r) :
    (∀ delay r₁, schedExec r (.call (.sleepCurrent delay)) = some r₁ →
      (schedCoreSleepCurrent r.sched delay).map Prod.snd = some true →
      r.sched.core.now + delay ≤ uint64Max ∧
      (r₁.sched.task r.sched.core.current).wakeTick = r.sched.core.now + delay ∧
      ∀ r', SleepContinues r.sched.core.current (r.sched.core.now + delay) r₁ r' →
        (r'.sched.task r.sched.core.current).state = .sleeping ∧
        ∀ now, r.sched.core.now + delay ≤ now → ∃ s',
          schedCoreTick r'.sched now = some (s', true) ∧
          (s'.task r.sched.core.current).state = .ready ∧ r.sched.core.current ∈ readyQueue s') ∧
    ∀ now s', schedCoreTick r.sched now = some (s', true) → ∃ released,
      readyQueue s' = readyQueue r.sched ++ released ∧
      released.Pairwise (SleepOrder r.sched r.sleptAt) ∧
      ∀ t, t ∈ released ↔ t ∈ registered r.sched ∧ (r.sched.task t).state = .sleeping ∧
        (r.sched.task t).wakeTick ≤ now := by
  obtain ⟨ready, sleepers, hgood⟩ := goodRun_of_reachable h
  refine ⟨fun delay r₁ hexec hok => ?_, fun now s' htick => ?_⟩
  · obtain ⟨r₂, ok, ready', sleepers', hexec', hcall, -, -, hspec, hgood'⟩ :=
      hgood.call (.sleepCurrent delay)
    rw [hexec] at hexec'
    cases hexec'
    have htrue : ok = true := by
      rw [callExec] at hcall
      rw [hcall] at hok
      exact Option.some.inj hok
    obtain ⟨-, hfits, hwake, hsleepers⟩ := hspec.sleeps delay rfl htrue
    have hasleep : Asleep r.sched.core.current (r.sched.core.now + delay) r₁ := by
      refine ⟨ready', sleepers', hgood', ?_, hwake⟩
      rw [hsleepers]
      exact List.mem_append_right _ List.mem_cons_self
    refine ⟨hfits, hwake, fun r' hrun => ?_⟩
    have hasleep' := asleep_of_continues hasleep hrun
    exact ⟨hasleep'.state, fun now hnow => hasleep'.tick hnow⟩
  · rcases schedCoreTick_spec hgood.inv now with ⟨-, htick'⟩ | ⟨-, s₁, htick', hinv, -⟩
    · rw [htick] at htick'
      cases htick'
    · rw [htick] at htick'
      cases htick'
      refine ⟨expired r.sched now sleepers, ?_, ?_, fun t => ?_⟩
      · rw [hinv.readyQueue_eq, hgood.inv.readyQueue_eq]
      · exact hgood.order.sublist (List.takeWhile_sublist _)
      · rw [mem_expired hgood.inv.queues.sleep_sorted, hgood.inv.queues.sleep_iff,
          and_assoc, and_assoc]
        exact registered_and_ne_zero

/-- The first task sleeps for five ticks, so it still sleeps at time 4; the tick at time 7 releases
it. -/
theorem sched_sleep_order_five : ∃ r' s', SchedReachable r' ∧
    (r'.sched.task 16).state = .sleeping ∧ schedCoreTick r'.sched 7 = some (s', true) ∧
    (s'.task 16).state = .ready ∧
    ∃ released, readyQueue s' = readyQueue r'.sched ++ released ∧ 16 ∈ released := by
  let calls : List SchedCall := [.add 24]
  let later : List SchedCall := [.select false, .tick 4]
  have hcore : (tinyAfter calls).sched.core.current = 16 ∧ (tinyAfter calls).sched.core.now = 0 ∧
      (schedCoreSleepCurrent (tinyAfter calls).sched 5).map Prod.snd = some true ∧
      (schedExec (tinyAfter calls) (.call (.sleepCurrent 5))).isSome = true := by decide +kernel
  obtain ⟨hcurrent, hnow, hok, hreturns⟩ := hcore
  obtain ⟨r₁, hsleep⟩ := Option.isSome_iff_exists.1 hreturns
  obtain ⟨r', hr'⟩ : ∃ r', r' = tinyAfter (calls ++ .sleepCurrent 5 :: later) := ⟨_, rfl⟩
  have hempty : readyQueue r'.sched = [] := by
    rw [hr']
    decide +kernel
  have hreach := tinyAfter_reachable calls
  have hreach' : SchedReachable r' := hr' ▸ tinyAfter_reachable _
  have hcontinues : SleepContinues 16 5 r₁ r' := by
    have hstart : SleepContinues 16 5 r₁ r₁ := .start rfl
    rw [hr', tinyAfter_append, List.map_cons, List.foldl_cons, hsleep]
    refine hstart.foldl_getD fun event hmem s => ?_
    rcases List.mem_cons.1 hmem with rfl | hmem
    · exact ⟨trivial, trivial⟩
    · rw [List.mem_singleton.1 hmem]
      exact ⟨trivial, (by decide : 4 < 5)⟩
  obtain ⟨-, -, hsleeps⟩ := (sched_sleep_order hreach).1 5 r₁ hsleep hok
  rw [hcurrent, hnow] at hsleeps
  obtain ⟨hstate, hticks⟩ := hsleeps r' hcontinues
  obtain ⟨s', htick, hready, hmem⟩ := hticks 7 (by decide)
  obtain ⟨released, hqueue, -, -⟩ := (sched_sleep_order hreach').2 7 s' htick
  refine ⟨r', s', hreach', hstate, htick, hready, released, hqueue, ?_⟩
  rw [hqueue, hempty, List.nil_append] at hmem
  exact hmem

end Sleep

end Utamo.Sched
