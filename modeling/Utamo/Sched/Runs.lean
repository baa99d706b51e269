import Utamo.Lib.Fifo
import Utamo.Lib.Transition
import Utamo.Sched.Operations

/-!
# Runs of the scheduler

A run starts with a successful `sched_core_init` and continues with calls in any order and with any
arguments; between the calls, the owners of nodes that are not registered may write them. Along a
run we record the history of the ready FIFO, the number of selections that were not cut short, and
the order in which tasks went to sleep.

The invariant of the runs is `SchedInv` together with the history (`GoodRun`); its step lemma is
`GoodRun.step`.
-/

set_option autoImplicit false

namespace Utamo.Sched

open Lib Lib.Ledger

variable {s s' : SchedMachine} {sleptAt : Nat → Nat} {t : Nat}

/-! ## Calls -/

/-- The calls of `sched_core.h` that change the core. -/
inductive SchedCall
  | add (task : Nat)
  | tick (now : Nat)
  | select (force : Bool)
  | sleepCurrent (delay : Nat)
  | blockCurrent
  | wake (task : Nat)
  | exitCurrent
  | removeZombie (task : Nat)
  | preemptDisable
  | preemptEnable

/-- A call and whether it succeeds; for a selection, whether it returns a task. -/
def callExec (s : SchedMachine) : SchedCall → Option (SchedMachine × Bool)
  | .add task => schedCoreAdd s task
  | .tick now => schedCoreTick s now
  | .select force =>
    let (s, next) := schedCoreSelect s force
    some (s, next ≠ 0)
  | .sleepCurrent delay => schedCoreSleepCurrent s delay
  | .blockCurrent => some (schedCoreBlockCurrent s)
  | .wake task => schedCoreWake s task
  | .exitCurrent => some (schedCoreExitCurrent s)
  | .removeZombie task => some (schedCoreRemoveZombie s task)
  | .preemptDisable => some (schedCorePreemptDisable s)
  | .preemptEnable => some (schedCorePreemptEnable s)

/-- The tasks of the ready FIFO. -/
def readyQueue (s : SchedMachine) : List Nat := follow 0 s.next schedMaxTasks s.core.readyHead

/-- The tasks of the sleep list. -/
def sleepQueue (s : SchedMachine) : List Nat := follow 0 s.next schedMaxTasks s.core.sleepHead

/-- What a call does to the FIFO: `ready_push` is an arrival, and a task that a selection takes off
the FIFO departs. -/
def callLog (s : SchedMachine) : SchedCall → Bool → List (QueueEvent Nat)
  | .add task, true => [.enter task]
  | .wake task, true => [.enter task]
  | .tick now, true => (expired s now (sleepQueue s)).map .enter
  | .select force, _ =>
    if selectStays s force then []
    else
      let next := (schedCoreSelect s force).2
      (requeued s).map .enter ++ if next = s.core.idle then [] else [.leave next]
  | _, _ => []

/-! ## Runs -/

/-- A core with the history of its FIFO, the number of its selections and the order in which tasks
went to sleep. -/
structure SchedRun where
  sched : SchedMachine
  log : List (QueueEvent Nat)
  selections : Nat
  sleeps : Nat
  sleptAt : Nat → Nat

/-- A call, or a write of the owner to a node. -/
inductive SchedEvent
  | call (call : SchedCall)
  | write (task : Nat) (node : SchedTask)

/-- The selections of a call that are not cut short. -/
def callSelections (s : SchedMachine) : SchedCall → Nat
  | .select force => if selectStays s force then 0 else 1
  | _ => 0

def schedExec (r : SchedRun) : SchedEvent → Option SchedRun
  | .call call => do
      let (sched, ok) ← callExec r.sched call
      let log := r.log ++ callLog r.sched call ok
      let selections := r.selections + callSelections r.sched call
      match call, ok with
      | .sleepCurrent _, true =>
        return { sched, log, selections, sleeps := r.sleeps + 1
                 sleptAt := Function.update r.sleptAt r.sched.core.current r.sleeps }
      | _, _ => return { r with sched, log, selections }
  | .write task node => some { r with sched := r.sched.setTask task node }

/-- Only nodes that are not registered are written from outside. -/
def schedEnabled (r : SchedRun) : SchedEvent → Prop
  | .call _ => True
  | .write task _ => task ∉ registered r.sched

def schedStart (r : SchedRun) : Prop :=
  (∃ s idle bootstrap quantumTicks now, s.self ≠ 0 ∧
    schedCoreInit s idle bootstrap quantumTicks now = (r.sched, true)) ∧
  r.log = [] ∧ r.selections = 0 ∧ r.sleeps = 0

def SchedReachable (r : SchedRun) : Prop := Reachable schedStart schedEnabled schedExec r

/-- The runs that go on from a run. -/
def SchedContinues (r r' : SchedRun) : Prop := Reachable (· = r) schedEnabled schedExec r'

/-! ## The invariant of a run -/

/-- The tasks of the sleep list in the order in which they went to sleep, as far as deadlines leave
it open. -/
def SleepOrder (s : SchedMachine) (sleptAt : Nat → Nat) (t u : Nat) : Prop :=
  (s.task t).wakeTick < (s.task u).wakeTick ∨
    ((s.task t).wakeTick = (s.task u).wakeTick ∧ sleptAt t < sleptAt u)

structure GoodRun (r : SchedRun) (ready sleepers : List Nat) : Prop where
  inv : SchedInv r.sched ready sleepers
  history : FifoHistory r.log ready
  order : sleepers.Pairwise (SleepOrder r.sched r.sleptAt)
  slept : ∀ t ∈ sleepers, r.sleptAt t < r.sleeps

section Queues

variable {s : SchedMachine} {ready sleepers : List Nat}

theorem SchedInv.readyQueue_eq (h : SchedInv s ready sleepers) : readyQueue s = ready :=
  h.queues.ready_list.follow_eq h.queues.ready_length_le

theorem SchedInv.sleepQueue_eq (h : SchedInv s ready sleepers) : sleepQueue s = sleepers :=
  h.queues.sleep_list.follow_eq h.queues.sleep_length_le

end Queues

/-! ## One call -/

/-- What a call does to the two lists of a core in order: the FIFO changes as the history says; the
sleepers keep their deadlines, stay unless they are woken or their time has come, and the only new
one is the task that goes to sleep. -/
structure CallSpec (s : SchedMachine) (call : SchedCall) (ok : Bool) (s' : SchedMachine)
    (ready sleepers ready' sleepers' : List Nat) : Prop where
  inv : SchedInv s' ready' sleepers'
  history : ∀ log, FifoHistory log ready → FifoHistory (log ++ callLog s call ok) ready'
  deadline : ∀ t ∈ sleepers, t ∈ sleepers' → (s'.task t).wakeTick = (s.task t).wakeTick
  stays : ∀ t ∈ sleepers, call ≠ .wake t →
    (∀ now, call = .tick now → now < (s.task t).wakeTick) → t ∈ sleepers'
  shrinks : (∀ delay, call = .sleepCurrent delay → ok = false) → sleepers'.Sublist sleepers
  sleeps : ∀ delay, call = .sleepCurrent delay → ok = true → s.core.current ∉ sleepers ∧
    s.core.now + delay ≤ uint64Max ∧ (s'.task s.core.current).wakeTick = s.core.now + delay ∧
    sleepers' = expired s (s.core.now + delay) sleepers ++ s.core.current ::
      unexpired s (s.core.now + delay) sleepers

section Calls

variable {s s' : SchedMachine} {call : SchedCall} {ok : Bool}
  {ready ready' sleepers sleepers' : List Nat}

/-- A call that does not touch the sleepers. -/
theorem CallSpec.of_untouched {touched : Nat → Prop} (hinv : SchedInv s' ready' sleepers)
    (huntouched : Untouched s s' touched) (hsleepers : ∀ t ∈ sleepers, ¬ touched t)
    (hhistory : ∀ log, FifoHistory log ready → FifoHistory (log ++ callLog s call ok) ready')
    (hcall : ∀ delay, call = .sleepCurrent delay → ok = false) :
    CallSpec s call ok s' ready sleepers ready' sleepers where
  inv := hinv
  history := hhistory
  deadline := fun t ht _ => huntouched.wakeTick t (hsleepers t ht)
  stays := fun _ ht _ _ => ht
  shrinks := fun _ => List.Sublist.refl _
  sleeps := fun delay hc hok => by
    rw [hcall delay hc] at hok
    cases hok

theorem history_nil {later : List (QueueEvent Nat)} (hlater : later = [])
    (log : List (QueueEvent Nat)) (hist : FifoHistory log ready) :
    FifoHistory (log ++ later) ready := by
  rw [hlater, List.append_nil]
  exact hist

/-- A call that is refused. -/
theorem CallSpec.refused (hinv : SchedInv s ready sleepers) (hlog : callLog s call false = []) :
    CallSpec s call false s ready sleepers ready sleepers :=
  .of_untouched hinv (.refl s fun _ => False) (fun _ _ => not_false) (history_nil hlog)
    fun _ _ => rfl

variable (h : SchedInv s ready sleepers)

include h

/-- The current task is no sleeper while it runs. -/
theorem SchedInv.running_awake
    (hruns : (s.task s.core.current).state = .running) : ∀ t ∈ sleepers, ¬ t = s.core.current := by
  rintro t ht rfl
  exact h.queues.notMem_sleepers (by rw [hruns]; exact nofun) ht

/-- A call that changes the running task and no list. -/
theorem CallSpec.of_current
    (hruns : (s.task s.core.current).state = .running) (hinv : SchedInv s' ready sleepers)
    (huntouched : Untouched s s' (· = s.core.current)) (hlog : callLog s call ok = [])
    (hcall : ∀ delay, call ≠ .sleepCurrent delay) :
    CallSpec s call ok s' ready sleepers ready sleepers :=
  .of_untouched hinv huntouched (h.running_awake hruns) (history_nil hlog)
    fun delay hc => absurd hc (hcall delay)

theorem stopCurrent_call {state : SchedState}
    (hstate : state = .blocked ∨ state = .zombie) (hlog : ∀ ok, callLog s call ok = [])
    (hcall : ∀ delay, call ≠ .sleepCurrent delay) :
    ∃ s' ok, stopCurrent s state = (s', ok) ∧
      CallSpec s call ok s' ready sleepers ready sleepers := by
  rcases stopCurrent_spec h hstate with ⟨-, hstop⟩ | ⟨hwait, s', hstop, hinv, huntouched, -⟩
  · exact ⟨s, false, hstop, .refused h (hlog false)⟩
  · exact ⟨s', true, hstop, .of_current h (h.can_wait hwait).2.1 hinv huntouched (hlog true) hcall⟩

theorem preempt_call {result : SchedMachine × Bool}
    (hspec : DepthOutcome s ready sleepers result)
    (hlog : ∀ ok, callLog s call ok = []) (hcall : ∀ delay, call ≠ .sleepCurrent delay) :
    ∃ s' ok, result = (s', ok) ∧ CallSpec s call ok s' ready sleepers ready sleepers := by
  rcases hspec with hres | ⟨s', hres, hruns, hinv, huntouched⟩
  · exact ⟨s, false, hres, .refused h (hlog false)⟩
  · exact ⟨s', true, hres, .of_current h (currentRuns_iff.1 hruns) hinv huntouched
      (hlog true) hcall⟩

/-- The idle task is never in the FIFO. -/
theorem SchedInv.fifo_ne_idle :
    ∀ t ∈ ready ++ requeued s, t ≠ s.core.idle := by
  intro t ht
  rcases List.mem_append.1 ht with ht | ht
  · exact ((h.queues.ready_iff t).1 ht).2.2.1
  · rw [requeued] at ht
    split at ht
    · rename_i hruns
      rw [List.mem_singleton] at ht
      rw [ht]
      exact hruns.2
    · cases ht

/-- A selection: the running task arrives at the FIFO, and the head departs. -/
theorem select_history {force : Bool}
    (hstays : selectStays s force = false) (hnext : (schedCoreSelect s force).2 = selected s ready)
    {log : List (QueueEvent Nat)} (hist : FifoHistory log ready) :
    FifoHistory (log ++ callLog s (.select force) ok) (ready ++ requeued s).tail := by
  have hnodup : (ready ++ requeued s).Nodup := by
    rw [requeued]
    split
    · rename_i hruns
      rw [List.nodup_append]
      refine ⟨h.queues.ready_nodup, List.nodup_singleton _, ?_⟩
      rintro t ht u hu rfl
      rw [List.mem_singleton.1 hu] at ht
      exact h.queues.notMem_ready (by rw [currentRuns_iff.1 hruns.1]; rintro ⟨⟩) ht
    · rw [List.append_nil]
      exact h.queues.ready_nodup
  have henter := hist.enterAll hnodup
  have hlog : callLog s (.select force) ok = (requeued s).map .enter ++
      if selected s ready = s.core.idle then [] else [.leave (selected s ready)] := by
    rw [callLog, hstays, hnext]
    rfl
  rw [hlog, selected, ← List.append_assoc]
  have hidle := h.fifo_ne_idle
  generalize ready ++ requeued s = queue at henter hidle ⊢
  cases queue with
  | nil =>
    rw [List.headD_nil, if_pos rfl, List.append_nil]
    exact henter
  | cons t rest =>
    rw [List.headD_cons, if_neg (hidle t List.mem_cons_self)]
    exact henter.leave

/-- A tick: the sleepers whose time has come arrive at the FIFO in their order. -/
theorem tick_call {now : Nat}
    (hinv : SchedInv s' (ready ++ expired s now sleepers) (unexpired s now sleepers))
    (huntouched : Untouched s s' (· ∈ expired s now sleepers)) :
    CallSpec s (.tick now) true s' ready sleepers (ready ++ expired s now sleepers)
      (unexpired s now sleepers) := by
  have hsorted := h.queues.sleep_sorted
  refine ⟨hinv, fun log hist => ?_, fun t ht ht' => ?_, fun t ht _ htick => ?_, fun _ => ?_, nofun⟩
  · rw [callLog, h.sleepQueue_eq]
    exact hist.enterAll hinv.queues.ready_nodup
  · refine huntouched.wakeTick t fun hexpired => ?_
    have hdue := ((mem_expired hsorted).1 hexpired).2
    have hlate := ((mem_unexpired hsorted).1 ht').2
    omega
  · exact (mem_unexpired hsorted).2 ⟨ht, htick now rfl⟩
  · exact List.dropWhile_sublist _

/-- Every call on a core in order returns and does what its history says. -/
theorem callExec_spec (call : SchedCall) :
    ∃ s' ok ready' sleepers', callExec s call = some (s', ok) ∧
      CallSpec s call ok s' ready sleepers ready' sleepers' := by
  cases call with
  | add t =>
    rcases schedCoreAdd_spec h t with hadd | ⟨s', hadd, hnew, hinv, huntouched, -⟩
    · exact ⟨s, false, _, _, hadd, .refused h rfl⟩
    · refine ⟨s', true, _, _, hadd, .of_untouched hinv huntouched ?_ (fun log hist => ?_) nofun⟩
      · rintro u hu rfl
        exact hnew ((h.queues.sleep_iff u).1 hu).1
      · exact hist.enter fun hmem => hnew ((h.queues.ready_iff t).1 hmem).1
  | tick now =>
    rcases schedCoreTick_spec h now with ⟨-, htick⟩ | ⟨-, s', htick, hinv, huntouched, -⟩
    · exact ⟨s, false, _, _, htick, .refused h rfl⟩
    · exact ⟨s', true, _, _, htick, tick_call h hinv huntouched⟩
  | select force =>
    rcases schedCoreSelect_spec h force with
      ⟨hstays, hsel⟩ | ⟨hstays, s', hsel, hinv, huntouched, -, -, hcurrent, hnowRuns⟩
    · refine ⟨s, _, ready, sleepers, by rw [callExec, hsel],
        .of_untouched h (.refl s fun _ => False) (fun _ _ => not_false) (history_nil ?_) nofun⟩
      rw [callLog, hstays]
      rfl
    · refine ⟨s', _, _, sleepers, by rw [callExec, hsel], .of_untouched hinv huntouched ?_ ?_ nofun⟩
      · rintro t ht (⟨hruns, rfl⟩ | rfl)
        · exact h.running_awake (currentRuns_iff.1 hruns) _ ht rfl
        · exact hinv.running_awake (currentRuns_iff.1 hnowRuns) _ ht hcurrent.symm
      · exact fun log hist => select_history h hstays (by rw [hsel]) hist
  | sleepCurrent delay =>
    rcases schedCoreSleepCurrent_spec h delay with
      ⟨-, hsleep⟩ | ⟨hwait, -, hfits, s', hsleep, hinv, huntouched, hwake, -⟩
    · exact ⟨s, false, _, _, hsleep, .refused h rfl⟩
    · have hruns := (h.can_wait hwait).2.1
      have hfresh : s.core.current ∉ sleepers := fun hmem => h.running_awake hruns _ hmem rfl
      have hsplit := expired_append_unexpired s (s.core.now + delay) sleepers
      refine ⟨s', true, _, _, hsleep, hinv, history_nil rfl, fun t ht _ => ?_, fun t ht _ _ => ?_,
        fun hc => ?_, fun d hd _ => ?_⟩
      · exact huntouched.wakeTick t (h.running_awake hruns t ht)
      · rw [← hsplit] at ht
        rcases List.mem_append.1 ht with ht | ht
        · exact List.mem_append_left _ ht
        · exact List.mem_append_right _ (List.mem_cons_of_mem _ ht)
      · cases hc delay rfl
      · cases hd
        exact ⟨hfresh, hfits, hwake, rfl⟩
  | blockCurrent =>
    obtain ⟨s', ok, hstop, hspec⟩ : ∃ s' ok, stopCurrent s .blocked = (s', ok) ∧
        CallSpec s .blockCurrent ok s' ready sleepers ready sleepers :=
      stopCurrent_call h (Or.inl rfl) (fun _ => rfl) nofun
    exact ⟨s', ok, ready, sleepers, congrArg some hstop, hspec⟩
  | wake t =>
    rcases schedCoreWake_spec h t with ⟨-, hwake⟩ | ⟨ht, hstate, s', hwake, hinv, huntouched, -⟩
    · exact ⟨s, false, _, _, hwake, .refused h rfl⟩
    · refine ⟨s', true, _, _, hwake, hinv, fun log hist => ?_, fun u hu hu' => ?_,
        fun u hu hcall _ => ?_, fun _ => List.erase_sublist, nofun⟩
      · have hfresh : t ∉ ready := by
          have hnodup := hinv.queues.ready_nodup
          rw [List.nodup_append] at hnodup
          exact fun hmem => hnodup.2.2 t hmem t (List.mem_singleton_self t) rfl
        exact hist.enter hfresh
      · refine huntouched.wakeTick u fun heq => ?_
        rw [heq] at hu'
        exact h.queues.sleep_nodup.not_mem_erase hu'
      · refine (List.mem_erase_of_ne fun heq => hcall ?_).2 hu
        rw [heq]
  | exitCurrent =>
    obtain ⟨s', ok, hstop, hspec⟩ : ∃ s' ok, stopCurrent s .zombie = (s', ok) ∧
        CallSpec s .exitCurrent ok s' ready sleepers ready sleepers :=
      stopCurrent_call h (Or.inr rfl) (fun _ => rfl) nofun
    exact ⟨s', ok, ready, sleepers, congrArg some hstop, hspec⟩
  | removeZombie t =>
    rcases schedCoreRemoveZombie_spec h t with
      ⟨-, hremove⟩ | ⟨-, -, -, hstate, s', hremove, hinv, huntouched, -⟩
    · exact ⟨s, false, _, _, congrArg some hremove, .refused h rfl⟩
    · refine ⟨s', true, ready, sleepers, congrArg some hremove,
        .of_untouched hinv huntouched ?_ (history_nil rfl) nofun⟩
      rintro u hu rfl
      exact h.queues.notMem_sleepers (by rw [hstate]; exact nofun) hu
  | preemptDisable =>
    obtain ⟨s', ok, hres, hspec⟩ : ∃ s' ok, schedCorePreemptDisable s = (s', ok) ∧
        CallSpec s .preemptDisable ok s' ready sleepers ready sleepers :=
      preempt_call h (schedCorePreemptDisable_spec h) (fun _ => rfl) nofun
    exact ⟨s', ok, ready, sleepers, congrArg some hres, hspec⟩
  | preemptEnable =>
    obtain ⟨s', ok, hres, hspec⟩ : ∃ s' ok, schedCorePreemptEnable s = (s', ok) ∧
        CallSpec s .preemptEnable ok s' ready sleepers ready sleepers :=
      preempt_call h (schedCorePreemptEnable_spec h) (fun _ => rfl) nofun
    exact ⟨s', ok, ready, sleepers, congrArg some hres, hspec⟩

end Calls

/-! ## Whole runs -/

section Run

variable {r r' : SchedRun} {ready sleepers ready' sleepers' : List Nat}

theorem SleepOrder.congr {sleptAt' : Nat → Nat} {u : Nat}
    (h : SleepOrder s sleptAt t u) (ht : (s'.task t).wakeTick = (s.task t).wakeTick)
    (hu : (s'.task u).wakeTick = (s.task u).wakeTick) (ht' : sleptAt' t = sleptAt t)
    (hu' : sleptAt' u = sleptAt u) : SleepOrder s' sleptAt' t u := by
  rw [SleepOrder, ht, hu, ht', hu']
  exact h

/-- A call other than going to sleep keeps the order of the sleepers. -/
theorem order_shrinks
    (horder : sleepers.Pairwise (SleepOrder s sleptAt)) (hsub : sleepers'.Sublist sleepers)
    (hdeadline : ∀ t ∈ sleepers, t ∈ sleepers' → (s'.task t).wakeTick = (s.task t).wakeTick) :
    sleepers'.Pairwise (SleepOrder s' sleptAt) := by
  refine (horder.sublist hsub).imp_of_mem fun {t u} ht hu hlt => ?_
  exact hlt.congr (hdeadline t (hsub.subset ht) ht) (hdeadline u (hsub.subset hu) hu) rfl rfl

/-- The task that goes to sleep last stands behind all with the same deadline. -/
theorem order_sleeps {sleeps deadline : Nat}
    (horder : sleepers.Pairwise (SleepOrder s sleptAt))
    (hslept : ∀ u ∈ sleepers, sleptAt u < sleeps)
    (hsorted : sleepers.Pairwise fun t u => (s.task t).wakeTick ≤ (s.task u).wakeTick)
    (hfresh : t ∉ sleepers) (hwake : (s'.task t).wakeTick = deadline)
    (hdeadline : ∀ u ∈ sleepers, (s'.task u).wakeTick = (s.task u).wakeTick) :
    (expired s deadline sleepers ++ t :: unexpired s deadline sleepers).Pairwise
      (SleepOrder s' (Function.update sleptAt t sleeps)) := by
  have hsplit := expired_append_unexpired s deadline sleepers
  have hmem : ∀ u, u ∈ expired s deadline sleepers ++ unexpired s deadline sleepers →
      u ∈ sleepers ∧ u ≠ t := by
    intro u hu
    rw [hsplit] at hu
    exact ⟨hu, fun heq => hfresh (heq ▸ hu)⟩
  have hold : (expired s deadline sleepers ++ unexpired s deadline sleepers).Pairwise
      (SleepOrder s' (Function.update sleptAt t sleeps)) := by
    rw [← hsplit] at horder
    refine horder.imp_of_mem fun {u v} hu hv hlt => ?_
    obtain ⟨hu, hut⟩ := hmem u hu
    obtain ⟨hv, hvt⟩ := hmem v hv
    exact hlt.congr (hdeadline u hu) (hdeadline v hv) (Function.update_of_ne hut _ _)
      (Function.update_of_ne hvt _ _)
  rw [List.pairwise_append] at hold ⊢
  refine ⟨hold.1, List.pairwise_cons.2 ⟨fun u hu => ?_, hold.2.1⟩, fun u hu v hv => ?_⟩
  · obtain ⟨hmemu, hlate⟩ := (mem_unexpired hsorted).1 hu
    rw [SleepOrder, hwake, hdeadline u hmemu]
    exact Or.inl hlate
  · rcases List.mem_cons.1 hv with rfl | hv
    · obtain ⟨hmemu, huv⟩ := hmem u (List.mem_append_left _ hu)
      have hdue := ((mem_expired hsorted).1 hu).2
      rw [SleepOrder, hwake, hdeadline u hmemu, Function.update_self, Function.update_of_ne huv]
      rcases Nat.lt_or_eq_of_le hdue with hlt | heq
      · exact Or.inl hlt
      · exact Or.inr ⟨heq, hslept u hmemu⟩
    · exact hold.2.2 u hu v hv

theorem goodRun_start (h : schedStart r) : GoodRun r [] [] := by
  obtain ⟨⟨s, idle, bootstrap, quantumTicks, now, hself, hinit⟩, hlog, -, -⟩ := h
  refine ⟨schedCoreInit_spec hself hinit, ?_, List.Pairwise.nil, nofun⟩
  rw [hlog]
  exact .start

theorem SchedInv.write (h : SchedInv s ready sleepers)
    (ht : t ∉ registered s) (node : SchedTask) : SchedInv (s.setTask t node) ready sleepers := by
  have hsame : ∀ u, u ∈ registered s → (s.setTask t node).task u = s.task u := by
    intro u hu
    have hut : u ≠ t := fun heq => ht (heq ▸ hu)
    exact setTask_of_ne hut
  refine ⟨h.queues.write ht node, h.current, fun hruns => h.pending ?_, fun u hu => ?_⟩
  · rw [← hruns, SchedMachine.currentRuns, SchedMachine.currentRuns]
    exact congrArg (fun node : SchedTask => decide (node.state = .running)) (hsame _ h.current).symm
  · rw [hsame u ((h.queues.sleep_iff u).1 hu).1]
    exact h.deadlines u hu

/-- One call of a run: it returns, and the run stays in order. -/
theorem GoodRun.call (h : GoodRun r ready sleepers) (call : SchedCall) :
    ∃ r' ok ready' sleepers', schedExec r (.call call) = some r' ∧
      callExec r.sched call = some (r'.sched, ok) ∧ r'.log = r.log ++ callLog r.sched call ok ∧
      r'.selections = r.selections + callSelections r.sched call ∧
      CallSpec r.sched call ok r'.sched ready sleepers ready' sleepers' ∧
      GoodRun r' ready' sleepers' := by
  obtain ⟨s', ok, ready', sleepers', hcall, hspec⟩ := callExec_spec h.inv call
  by_cases hsleep : ∃ delay, call = .sleepCurrent delay ∧ ok = true
  · obtain ⟨delay, rfl, rfl⟩ := hsleep
    obtain ⟨hfresh, -, hwake, hsleepers⟩ := hspec.sleeps delay rfl rfl
    have hexec : schedExec r (.call (.sleepCurrent delay)) = some {
        sched := s', log := r.log ++ callLog r.sched (.sleepCurrent delay) true
        selections := r.selections + callSelections r.sched (.sleepCurrent delay)
        sleeps := r.sleeps + 1
        sleptAt := Function.update r.sleptAt r.sched.core.current r.sleeps } := by
      rw [schedExec, hcall]
      rfl
    refine ⟨_, true, ready', sleepers', hexec, hcall, rfl, rfl, hspec, hspec.inv,
      hspec.history _ h.history, ?_, ?_⟩
    · rw [hsleepers]
      refine order_sleeps h.order h.slept h.inv.queues.sleep_sorted hfresh hwake fun u hu => ?_
      exact hspec.deadline u hu (hspec.stays u hu nofun nofun)
    · intro u hu
      have hmem : u = r.sched.core.current ∨ u ∈ sleepers := by
        rw [hsleepers] at hu
        rw [← expired_append_unexpired r.sched (r.sched.core.now + delay) sleepers]
        rcases List.mem_append.1 hu with hu | hu
        · exact Or.inr (List.mem_append_left _ hu)
        · exact (List.mem_cons.1 hu).imp id (List.mem_append_right _)
      by_cases hcur : u = r.sched.core.current
      · rw [hcur]
        simp only [Function.update_self]
        exact Nat.lt_succ_self _
      · simp only [Function.update_of_ne hcur]
        exact Nat.lt_succ_of_lt (h.slept u (hmem.resolve_left hcur))
  · have hexec : schedExec r (.call call) = some { r with
        sched := s', log := r.log ++ callLog r.sched call ok
        selections := r.selections + callSelections r.sched call } := by
      rw [schedExec, hcall]
      cases call <;> cases ok <;> first | rfl | exact absurd ⟨_, rfl, rfl⟩ hsleep
    have hshrinks := hspec.shrinks fun delay hc => by
      cases ok with
      | false => rfl
      | true => exact absurd ⟨delay, hc, rfl⟩ hsleep
    exact ⟨_, ok, ready', sleepers', hexec, hcall, rfl, rfl, hspec, hspec.inv,
      hspec.history _ h.history, order_shrinks h.order hshrinks hspec.deadline,
      fun u hu => h.slept u (hshrinks.subset hu)⟩

/-- A write to a node that is not registered. -/
theorem GoodRun.write (h : GoodRun r ready sleepers) (ht : t ∉ registered r.sched)
    (node : SchedTask) : GoodRun { r with sched := r.sched.setTask t node } ready sleepers := by
  refine ⟨h.inv.write ht node, h.history, ?_, h.slept⟩
  refine order_shrinks h.order (List.Sublist.refl _) fun u hu _ => ?_
  have hut : u ≠ t := fun heq => ht (heq ▸ ((h.inv.queues.sleep_iff u).1 hu).1)
  exact congrArg SchedTask.wakeTick (setTask_of_ne hut)

/-- One event of a run. -/
theorem GoodRun.step (h : GoodRun r ready sleepers) {event : SchedEvent}
    (hen : schedEnabled r event) (hexec : schedExec r event = some r') :
    ∃ ready' sleepers', GoodRun r' ready' sleepers' := by
  cases event with
  | write t node =>
    cases hexec
    exact ⟨ready, sleepers, h.write hen node⟩
  | call call =>
    obtain ⟨r'', ok, ready', sleepers', hexec', -, -, -, -, hr'⟩ := h.call call
    rw [hexec] at hexec'
    cases hexec'
    exact ⟨ready', sleepers', hr'⟩

theorem goodRun_of_reachable (h : SchedReachable r) :
    ∃ ready sleepers, GoodRun r ready sleepers := by
  have hstart : ∀ r, schedStart r → ∃ ready sleepers, GoodRun r ready sleepers :=
    fun r hr => ⟨[], [], goodRun_start hr⟩
  refine h.invariant hstart ?_
  rintro r event r' ⟨ready, sleepers, hr⟩ hen hexec
  exact hr.step hen hexec

/-- A core whose idle task is the node 8 and whose first task is the node 16. -/
def tinySched : SchedRun where
  sched := (schedCoreInit ⟨1, ⟨fun _ => 0, 0, 0, 0, 0, 0, 0, 0, 0, 0, 0, 0, false, false⟩,
    fun _ => .zero⟩ 8 16 2 0).1
  log := []
  selections := 0
  sleeps := 0
  sleptAt := fun _ => 0

/-- The small core after the calls. -/
def tinyAfter (calls : List SchedCall) : SchedRun :=
  (calls.map SchedEvent.call).foldl (fun r event => (schedExec r event).getD r) tinySched

theorem tinyAfter_reachable (calls : List SchedCall) : SchedReachable (tinyAfter calls) := by
  have hstart : SchedReachable tinySched :=
    .start ⟨⟨_, 8, 16, 2, 0, by decide, Prod.ext rfl (by decide)⟩, rfl, rfl, rfl⟩
  refine hstart.foldl_getD fun event hmem s => ?_
  obtain ⟨call, -, rfl⟩ := List.mem_map.1 hmem
  trivial

theorem tinyAfter_append (calls later : List SchedCall) : tinyAfter (calls ++ later) =
    (later.map SchedEvent.call).foldl (fun r event => (schedExec r event).getD r)
      (tinyAfter calls) := by
  rw [tinyAfter, List.map_append, List.foldl_append, tinyAfter]

theorem tinyAfter_continues (calls later : List SchedCall) :
    SchedContinues (tinyAfter calls) (tinyAfter (calls ++ later)) := by
  have hstart : SchedContinues (tinyAfter calls) (tinyAfter calls) := .start rfl
  rw [tinyAfter_append]
  refine hstart.foldl_getD fun event hmem s => ?_
  obtain ⟨call, -, rfl⟩ := List.mem_map.1 hmem
  trivial

/-- In every reachable state the core is valid and every call returns. The ready FIFO holds the
ready tasks except the idle task, the sleep list holds the sleepers by deadline, each of them once;
only the current task runs, and if it does not, a switch is pending. -/
theorem sched_core_queues (h : SchedReachable r) :
    schedCoreValidate r.sched = true ∧ (∀ call, (callExec r.sched call).isSome = true) ∧
      Segment 0 r.sched.next r.sched.core.readyHead (readyQueue r.sched) 0 ∧
      (readyQueue r.sched).Nodup ∧
      (∀ t, t ∈ readyQueue r.sched ↔
        t ∈ registered r.sched ∧ t ≠ r.sched.core.idle ∧ (r.sched.task t).state = .ready) ∧
      Segment 0 r.sched.next r.sched.core.sleepHead (sleepQueue r.sched) 0 ∧
      (sleepQueue r.sched).Nodup ∧
      (∀ t, t ∈ sleepQueue r.sched ↔ t ∈ registered r.sched ∧ (r.sched.task t).state = .sleeping) ∧
      (sleepQueue r.sched).Pairwise
        (fun t u => (r.sched.task t).wakeTick ≤ (r.sched.task u).wakeTick) ∧
      (∀ t ∈ registered r.sched, (r.sched.task t).state = .running → t = r.sched.core.current) ∧
      ((∀ t ∈ registered r.sched, (r.sched.task t).state ≠ .running) →
        r.sched.core.reschedule = true) := by
  obtain ⟨ready, sleepers, hgood⟩ := goodRun_of_reachable h
  have hinv := hgood.inv
  have hqueues := hinv.queues
  rw [hinv.readyQueue_eq, hinv.sleepQueue_eq]
  refine ⟨schedCoreValidate_of_inv hinv, fun call => ?_, hqueues.ready_list, hqueues.ready_nodup,
    fun t => ?_, hqueues.sleep_list, hqueues.sleep_nodup, fun t => ?_, hqueues.sleep_sorted,
    fun t ht hruns => ?_, fun hnone => ?_⟩
  · obtain ⟨s', ok, -, -, hcall, -⟩ := callExec_spec hinv call
    rw [hcall]
    rfl
  · exact (hqueues.ready_iff t).trans registered_and_ne_zero
  · exact (hqueues.sleep_iff t).trans registered_and_ne_zero
  · exact (hqueues.settled t ht (ne_zero_of_registered ht)).running hruns
  · refine hinv.pending ?_
    exact not_currentRuns_iff.2 (hnone _ hinv.current)

/-- Two new tasks, and the first task goes to sleep before the next selection. -/
theorem sched_core_queues_three : ∃ r, SchedReachable r ∧ r.sched.core.current = 24 ∧
    readyQueue r.sched = [32] ∧ sleepQueue r.sched = [16] ∧
    (r.sched.task 16).state = .sleeping := by
  let calls : List SchedCall := [.add 24, .add 32, .sleepCurrent 5, .select false]
  have hlists : (tinyAfter calls).sched.core.current = 24 ∧
      readyQueue (tinyAfter calls).sched = [32] ∧ sleepQueue (tinyAfter calls).sched = [16] := by
    decide +kernel
  obtain ⟨hcurrent, hready, hsleep⟩ := hlists
  have hreach := tinyAfter_reachable calls
  obtain ⟨-, -, -, -, -, -, -, hsleepers, -⟩ := sched_core_queues hreach
  have hstate := (hsleepers 16).1 (hsleep ▸ List.mem_singleton_self 16)
  exact ⟨_, hreach, hcurrent, hready, hsleep, hstate.2⟩

end Run

end Utamo.Sched
