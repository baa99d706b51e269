import Utamo.Sched.Runs

/-!
# Preemption and requests for a switch

A task that has disabled preemption stays the current task and stays running, whatever is called.
A request for a switch is raised when the quantum of the current task ends and when a task
becomes ready while the idle task is current; it is never dropped, only served by a selection
that is not cut short.

`Requests` says what a part of an operation does to the request, and `Requested` is the invariant
that follows from it over a run.
-/

set_option autoImplicit false

namespace Utamo.Sched

open Lib Lib.Ledger

variable {t : Nat}

/-! ## The request along an operation -/

/-- An operation, or a part of one, that selects no task: it keeps a request, and it makes one if it
ends the quantum of the current task or puts a task into the FIFO while the idle task is current. -/
structure Requests (s s' : SchedMachine) : Prop where
  current : s'.core.current = s.core.current
  idle : s'.core.idle = s.core.idle
  kept : s.core.reschedule = true → s'.core.reschedule = true
  quantum : s.core.current ≠ s.core.idle → (s'.task s.core.current).quantumLeft = 0 →
    (s.task s.core.current).quantumLeft = 0 ∨ s'.core.reschedule = true
  arrives : s.core.current = s.core.idle →
    s'.core.readyHead = s.core.readyHead ∨ s'.core.reschedule = true

section Parts

variable {s s' s'' : SchedMachine} {ready sleepers : List Nat} {t : Nat}

theorem Requests.refl (s : SchedMachine) : Requests s s :=
  ⟨rfl, rfl, id, fun _ h => Or.inl h, fun _ => Or.inl rfl⟩

theorem Requests.trans (h : Requests s s') (h' : Requests s' s'') : Requests s s'' where
  current := h'.current.trans h.current
  idle := h'.idle.trans h.idle
  kept := fun hreq => h'.kept (h.kept hreq)
  quantum := by
    intro hne hzero
    have hne' : s'.core.current ≠ s'.core.idle := by rwa [h.current, h.idle]
    rw [← h.current] at hzero
    rcases h'.quantum hne' hzero with hbefore | hreq
    · rw [h.current] at hbefore
      exact (h.quantum hne hbefore).imp_right h'.kept
    · exact Or.inr hreq
  arrives := by
    intro heq
    have heq' : s'.core.current = s'.core.idle := by rwa [h.current, h.idle]
    rcases h'.arrives heq' with hsame | hreq
    · rcases h.arrives heq with hfirst | hreq
      · exact Or.inl (hsame.trans hfirst)
      · exact Or.inr (h'.kept hreq)
    · exact Or.inr hreq

/-- A write to a node that leaves the quantum of the current task. -/
theorem requests_setTask {node : SchedTask}
    (h : t = s.core.current → node.quantumLeft = (s.task t).quantumLeft) :
    Requests s (s.setTask t node) where
  current := rfl
  idle := rfl
  kept := id
  quantum := by
    intro _ hzero
    left
    by_cases ht : s.core.current = t
    · rw [ht, setTask_self, h ht.symm] at hzero
      rw [ht]
      exact hzero
    · rw [setTask_of_ne ht] at hzero
      exact hzero
  arrives := fun _ => Or.inl rfl

theorem requests_writeLink (s : SchedMachine) (link : Option Nat) (value : Nat) :
    Requests s (s.writeLink link value) := by
  cases link with
  | none => exact ⟨rfl, rfl, id, fun _ h => Or.inl h, fun _ => Or.inl rfl⟩
  | some u => exact requests_setTask fun _ => rfl

theorem appendReady_core (s : SchedMachine) (t : Nat) :
    (appendReady s t).core.current = s.core.current ∧ (appendReady s t).core.idle = s.core.idle ∧
      (appendReady s t).core.reschedule = s.core.reschedule := by
  rw [appendReady]
  simp only
  split
  · exact ⟨rfl, rfl, rfl⟩
  · exact ⟨rfl, rfl, rfl⟩

/-- The FIFO does not touch the quantum of any task. -/
theorem appendReady_quantumLeft (s : SchedMachine) (t u : Nat) :
    ((appendReady s t).task u).quantumLeft = (s.task u).quantumLeft := by
  have hset : ∀ (s : SchedMachine) (v : Nat) (node : SchedTask),
      node.quantumLeft = (s.task v).quantumLeft →
      ((s.setTask v node).task u).quantumLeft = (s.task u).quantumLeft := by
    intro s v node hnode
    by_cases hu : u = v
    · rw [hu, setTask_self, hnode]
    · rw [setTask_of_ne hu]
  rw [appendReady]
  simp only
  split
  · refine (hset _ _ _ ?_).trans (hset s t _ ?_)
    · rfl
    · rfl
  · refine hset s t _ ?_
    rfl

theorem requestSwitch_kept (s : SchedMachine) (h : s.core.reschedule = true) :
    (requestSwitch s).core.reschedule = true := by
  rw [requestSwitch]
  split
  · rfl
  · exact h

theorem requests_readyPush (s : SchedMachine) (t : Nat) : Requests s (readyPush s t) := by
  obtain ⟨hcurrent, hidle, hreq⟩ := appendReady_core s t
  obtain ⟨hcore, htask, -⟩ : (requestSwitch (appendReady s t)).core.current = s.core.current ∧
      (requestSwitch (appendReady s t)).task = (appendReady s t).task ∧
      (requestSwitch (appendReady s t)).core.idle = s.core.idle := by
    rw [requestSwitch]
    split
    · exact ⟨hcurrent, rfl, hidle⟩
    · exact ⟨hcurrent, rfl, hidle⟩
  refine ⟨hcore, ?_, fun h => ?_, fun _ hzero => Or.inl ?_, fun heq => Or.inr ?_⟩
  · rw [readyPush, requestSwitch]
    split
    · exact hidle
    · exact hidle
  · exact requestSwitch_kept _ (hreq.trans h)
  · rw [readyPush, htask, appendReady_quantumLeft] at hzero
    exact hzero
  · rw [readyPush, requestSwitch, hcurrent, hidle, if_pos (Or.inl heq)]

theorem requests_registerTask {slot : Nat} (h : t ≠ s.core.current) :
    Requests s (registerTask s slot t) := by
  refine ⟨rfl, rfl, id, fun _ hzero => Or.inl ?_, fun _ => Or.inl rfl⟩
  rw [registerTask_of_ne h.symm] at hzero
  exact hzero

theorem requests_unregisterTask {slot : Nat} (h : t ≠ s.core.current) :
    Requests s (unregisterTask s slot t) := by
  refine ⟨rfl, rfl, id, fun _ hzero => Or.inl ?_, fun _ => Or.inl rfl⟩
  rw [unregisterTask_of_ne h.symm] at hzero
  exact hzero

/-- The accounting of a tick asks for a switch when it uses up the quantum. -/
theorem requests_chargeCurrent (s : SchedMachine) : Requests s (chargeCurrent s) := by
  rw [chargeCurrent]
  simp only
  split
  · split
    · refine ⟨rfl, rfl, fun h => ?_, fun _ hzero => Or.inr ?_, fun _ => Or.inl rfl⟩
      · show (s.core.reschedule || _) = true
        rw [h, Bool.true_or]
      · -- The quantum that is left is also what the request depends on.
        rw [setTask_self] at hzero
        show (s.core.reschedule || _) = true
        rw [decide_eq_true hzero, Bool.or_true]
    · exact requests_setTask fun _ => rfl
  · exact .refl s

theorem requests_expireSleepers {now : Nat} : ∀ {fuel : Nat} {s s' : SchedMachine},
    expireSleepers now fuel s = some s' → Requests s s' := by
  intro fuel
  induction fuel with
  | zero => exact nofun
  | succ fuel ih =>
    intro s s' h
    rw [expireSleepers] at h
    split at h
    · have hhead : Requests s
          { s with core := { s.core with sleepHead := s.next s.core.sleepHead } } :=
        ⟨rfl, rfl, id, fun _ h => Or.inl h, fun _ => Or.inl rfl⟩
      exact (hhead.trans (requests_readyPush _ _)).trans (ih h)
    · cases h
      exact .refl s

end Parts

/-! ## One call -/

section Calls

variable {s s' : SchedMachine} {ready sleepers : List Nat} {ok : Bool}

theorem requests_stopCurrent (state : SchedState) : Requests s (stopCurrent s state).1 := by
  rw [stopCurrent]
  split
  · exact .refl s
  · have hset : Requests s
        (s.setTask s.core.current { s.task s.core.current with state }) :=
      requests_setTask fun _ => rfl
    exact hset.trans ⟨rfl, rfl, fun _ => rfl, fun _ h => Or.inl h, fun _ => Or.inl rfl⟩

theorem requests_linkSleeper (h : linkSleeper s t = some s') : Requests s s' := by
  simp only [linkSleeper, Option.bind_eq_bind, Option.bind_eq_some_iff, Option.pure_def,
    Option.some.injEq] at h
  obtain ⟨link, -, rfl⟩ := h
  have hnext : Requests s
      (s.setTask t { s.task t with next := readLink s.core.sleepHead s.next link }) :=
    requests_setTask fun _ => rfl
  exact hnext.trans (requests_writeLink _ link t)

theorem requests_sleepCurrent {delay : Nat}
    (h : schedCoreSleepCurrent s delay = some (s', ok)) : Requests s s' := by
  rw [schedCoreSleepCurrent] at h
  split at h
  · cases h
    exact .refl s
  · simp only [Option.bind_eq_bind, Option.bind_eq_some_iff, Option.pure_def, Option.some.injEq,
      Prod.mk.injEq] at h
    obtain ⟨s1, hlink, rfl, -⟩ := h
    have hasleep : Requests s (s.setTask s.core.current
        ((s.task s.core.current).asleep (addU64 s.core.now delay))) :=
      requests_setTask fun _ => rfl
    have hlinked := hasleep.trans (requests_linkSleeper hlink)
    exact hlinked.trans ⟨rfl, rfl, fun _ => rfl, fun _ h => Or.inl h, fun _ => Or.inl rfl⟩

theorem requests_unlinkSleeper (h : unlinkSleeper s t = some s') : Requests s s' := by
  simp only [unlinkSleeper, Option.bind_eq_bind, Option.bind_eq_some_iff, Option.pure_def,
    Option.some.injEq] at h
  obtain ⟨link, -, rfl⟩ := h
  exact requests_writeLink s link _

theorem requests_wake (h : schedCoreWake s t = some (s', ok)) : Requests s s' := by
  rw [schedCoreWake] at h
  split at h
  · cases h
    exact .refl s
  · simp only [Option.bind_eq_bind, Option.pure_def] at h
    split at h
    · rw [Option.bind_eq_some_iff] at h
      obtain ⟨s1, hunlink, heq⟩ := h
      cases heq
      exact (requests_unlinkSleeper hunlink).trans (requests_readyPush s1 t)
    · cases h
      exact requests_readyPush s t

theorem requests_add (hinv : SchedInv s ready sleepers)
    (h : schedCoreAdd s t = some (s', ok)) : Requests s s' := by
  rw [schedCoreAdd] at h
  split at h
  · cases h
    exact .refl s
  · rename_i hargs
    simp only [not_or, not_not] at hargs
    simp only at h
    split at h
    · cases h
    · cases h
      refine (requests_registerTask ?_).trans (requests_readyPush _ t)
      -- A task without an owner is not the current one.
      rintro rfl
      have howner := (hinv.queues.registry.sound _ hinv.current).owner
      rw [hargs.2.2.1] at howner
      exact hinv.queues.registry.self howner.symm

theorem requests_tick {now : Nat} (h : schedCoreTick s now = some (s', ok)) : Requests s s' := by
  rw [schedCoreTick] at h
  split at h
  · cases h
    exact .refl s
  · simp only [Option.bind_eq_bind, Option.bind_eq_some_iff, Option.pure_def, Option.some.injEq,
      Prod.mk.injEq] at h
    obtain ⟨s1, hloop, rfl, -⟩ := h
    have hclock : Requests s
        { s with core := { s.core with now, ticks := increment s.core.ticks } } :=
      ⟨rfl, rfl, id, fun _ h => Or.inl h, fun _ => Or.inl rfl⟩
    exact (hclock.trans (requests_chargeCurrent _)).trans (requests_expireSleepers hloop)

/-- A call that selects no task keeps the request, or makes one. -/
theorem callExec_requests {call : SchedCall} (hinv : SchedInv s ready sleepers)
    (h : callExec s call = some (s', ok)) (hselects : callSelections s call = 0) :
    Requests s s' := by
  cases call with
  | add t => exact requests_add hinv h
  | tick now => exact requests_tick h
  | select force =>
    rcases schedCoreSelect_spec hinv force with ⟨-, hsel⟩ | ⟨hstays, -⟩
    · rw [callExec, hsel] at h
      cases h
      exact .refl s
    · rw [callSelections, hstays] at hselects
      cases hselects
  | sleepCurrent delay => exact requests_sleepCurrent h
  | blockCurrent =>
    have hs : s' = (stopCurrent s .blocked).1 := (congrArg Prod.fst (Option.some.inj h)).symm
    rw [hs]
    exact requests_stopCurrent .blocked
  | wake t => exact requests_wake h
  | exitCurrent =>
    have hs : s' = (stopCurrent s .zombie).1 := (congrArg Prod.fst (Option.some.inj h)).symm
    rw [hs]
    exact requests_stopCurrent .zombie
  | removeZombie t =>
    have hs : s' = (schedCoreRemoveZombie s t).1 := (congrArg Prod.fst (Option.some.inj h)).symm
    rw [hs, schedCoreRemoveZombie]
    split
    · exact .refl s
    · simp only
      split
      · exact .refl s
      · rename_i hargs
        simp only [not_or] at hargs
        exact requests_unregisterTask hargs.2.1
  | preemptDisable =>
    have hs : s' = (schedCorePreemptDisable s).1 := (congrArg Prod.fst (Option.some.inj h)).symm
    rw [hs, schedCorePreemptDisable]
    split
    · exact .refl s
    · exact requests_setTask fun _ => rfl
  | preemptEnable =>
    have hs : s' = (schedCorePreemptEnable s).1 := (congrArg Prod.fst (Option.some.inj h)).symm
    rw [hs, schedCorePreemptEnable]
    split
    · exact .refl s
    · exact requests_setTask fun _ => rfl

/-- What a call leaves of a current task that has disabled preemption. -/
theorem callExec_holds {call : SchedCall} (hinv : SchedInv s ready sleepers)
    (hdepth : (s.task s.core.current).preemptDepth ≠ 0) (h : callExec s call = some (s', ok)) :
    s'.core.current = s.core.current ∧ (s'.task s.core.current).state = .running := by
  have hruns : (s.task s.core.current).state = .running :=
    ((hinv.queues.registry.sound _ hinv.current).depth hdepth).2
  -- Only calls that change nothing, or no node but others, are left.
  have hrefused : ∀ {ok'}, callExec s call = some (s, ok') →
      s'.core.current = s.core.current ∧ (s'.task s.core.current).state = .running := by
    intro ok' hcall
    cases h.symm.trans hcall
    exact ⟨rfl, hruns⟩
  have hwait : currentCanWait s = false := by
    rw [currentCanWait, decide_eq_false_iff_not]
    exact fun hcan => hdepth hcan.2.2.2
  have hothers : ∀ {s₁ ok' touched}, callExec s call = some (s₁, ok') → Untouched s s₁ touched →
      ¬ touched s.core.current → s₁.core.current = s.core.current →
      s'.core.current = s.core.current ∧ (s'.task s.core.current).state = .running := by
    intro s₁ ok' touched hcall hun hnot hcur
    cases h.symm.trans hcall
    exact ⟨hcur, (hun.state _ hnot).trans hruns⟩
  have hstop : ∀ state, stopCurrent s state = (s, false) := by
    intro state
    rw [stopCurrent, hwait]
    rfl
  -- A change of the depth alone.
  have hset : ∀ {depth ok'}, callExec s call =
      some (s.setTask s.core.current { s.task s.core.current with preemptDepth := depth }, ok') →
      s'.core.current = s.core.current ∧ (s'.task s.core.current).state = .running := by
    intro depth ok' hcall
    cases h.symm.trans hcall
    rw [setTask_self]
    exact ⟨rfl, hruns⟩
  cases call with
  | add t =>
    rcases schedCoreAdd_spec hinv t with hadd | ⟨s₁, hadd, hnew, -, hun, -, -, hcur⟩
    · exact hrefused hadd
    · exact hothers hadd hun (fun heq => hnew (heq ▸ hinv.current)) hcur
  | tick now =>
    rcases schedCoreTick_spec hinv now with ⟨-, htick⟩ | ⟨-, s₁, htick, -, hun, -, -, hcur⟩
    · exact hrefused htick
    · refine hothers htick hun (fun hmem => ?_) hcur
      have hsleeper := ((mem_expired hinv.queues.sleep_sorted).1 hmem).1
      exact hinv.running_awake hruns _ hsleeper rfl
  | select force =>
    have hstays : selectStays s force = true := decide_eq_true (Or.inl hdepth)
    rcases schedCoreSelect_spec hinv force with ⟨-, hsel⟩ | ⟨hnot, -⟩
    · exact hrefused (by rw [callExec, hsel])
    · rw [hstays] at hnot
      cases hnot
  | sleepCurrent delay =>
    rcases schedCoreSleepCurrent_spec hinv delay with ⟨-, hsleep⟩ | ⟨hcan, -⟩
    · exact hrefused hsleep
    · rw [hwait] at hcan
      cases hcan
  | blockCurrent => exact hrefused (congrArg some (hstop .blocked))
  | wake t =>
    rcases schedCoreWake_spec hinv t with ⟨-, hwake⟩ | ⟨-, hst, s₁, hwake, -, hun, -, -, hcur⟩
    · exact hrefused hwake
    · refine hothers hwake hun ?_ hcur
      rintro rfl
      rw [hruns] at hst
      rcases hst with hst | hst <;> cases hst
  | exitCurrent => exact hrefused (congrArg some (hstop .zombie))
  | removeZombie t =>
    rcases schedCoreRemoveZombie_spec hinv t with
      ⟨-, hremove⟩ | ⟨-, hne, -, -, s₁, hremove, -, hun, -, -, -, hcur⟩
    · exact hrefused (congrArg some hremove)
    · exact hothers (congrArg some hremove) hun (fun heq => hne heq.symm) hcur
  | preemptDisable =>
    rw [callExec, schedCorePreemptDisable] at hrefused hset
    split at hrefused
    · exact hrefused rfl
    · exact hset (congrArg some (if_neg ‹_›))
  | preemptEnable =>
    rw [callExec, schedCorePreemptEnable] at hrefused hset
    split at hrefused
    · exact hrefused rfl
    · exact hset (congrArg some (if_neg ‹_›))

end Calls

/-! ## Whole runs -/

/-- Nothing that asks for a switch is without its request. -/
structure Requested (s : SchedMachine) : Prop where
  quantum : s.core.current ≠ s.core.idle → (s.task s.core.current).quantumLeft = 0 →
    s.core.reschedule = true
  arrived : s.core.current = s.core.idle → s.core.readyHead ≠ 0 → s.core.reschedule = true

section Run

variable {s s' : SchedMachine} {r r' : SchedRun} {ready sleepers : List Nat}

theorem Requests.requested (h : Requests s s') (hs : Requested s) : Requested s' where
  quantum := by
    intro hne hzero
    rw [h.current, h.idle] at hne
    rw [h.current] at hzero
    rcases h.quantum hne hzero with hbefore | hreq
    · exact h.kept (hs.quantum hne hbefore)
    · exact hreq
  arrived := by
    intro heq hhead
    rw [h.current, h.idle] at heq
    rcases h.arrives heq with hsame | hreq
    · rw [hsame] at hhead
      exact h.kept (hs.arrived heq hhead)
    · exact hreq

/-- A selection that is not cut short starts a new quantum, and leaves the idle task only with an
empty FIFO. -/
theorem requested_of_select (hinv : SchedInv s ready sleepers) {force : Bool}
    (hstays : selectStays s force = false) : Requested (schedCoreSelect s force).1 := by
  rcases schedCoreSelect_spec hinv force with ⟨hnot, -⟩ | ⟨-, s', hsel, hinv', hun, -, -, hcur, -⟩
  · rw [hstays] at hnot
    cases hnot
  have hquantum : ∀ u, u = (schedCoreSelect s force).2 →
      ((schedCoreSelect s force).1.task u).quantumLeft = s.core.quantumTicks := by
    rintro u rfl
    have hdepth : (s.task s.core.current).preemptDepth = 0 := by
      rw [selectStays, decide_eq_false_iff_not, not_or, not_not] at hstays
      exact hstays.1
    obtain ⟨-, -, -, -, hsame⟩ := requeueCurrent_spec hinv hdepth
    rw [schedCoreSelect, schedCoreValidate_of_inv hinv, hstays, ← hsame]
    simp only [not_true_eq_false, if_false, Bool.false_eq_true]
    rw [setTask_self, takeNext]
    simp only
    split
    · rfl
    · rfl
  rw [hsel] at hquantum ⊢
  refine ⟨fun _ hzero => ?_, fun heq hhead => ?_⟩
  · rw [hcur, hquantum _ rfl] at hzero
    exact absurd hzero hinv.queues.registry.quantum
  · -- The head of a FIFO with a task in it is not the idle task.
    have hempty : ready ++ requeued s = [] := by
      have hidle := hinv.fifo_ne_idle
      rw [hcur, hun.idle, selected] at heq
      generalize ready ++ requeued s = queue at hidle heq ⊢
      cases queue with
      | nil => rfl
      | cons t rest => exact absurd heq (hidle t List.mem_cons_self)
    have hlist := hinv'.queues.ready_list
    rw [hempty, List.tail_nil] at hlist
    exact absurd (hlist.eq_nil_iff.1 rfl) hhead

theorem requested_of_start (h : schedStart r) : Requested r.sched := by
  obtain ⟨⟨s, idle, bootstrap, quantumTicks, now, -, hinit⟩, -⟩ := h
  rw [schedCoreInit] at hinit
  split at hinit
  · cases hinit
  rename_i hargs
  simp only [not_or] at hargs
  obtain ⟨-, -, -, hne, -, -, hquantum⟩ := hargs
  simp only [Prod.mk.injEq, and_true] at hinit
  have hcurrent : r.sched.core.current = bootstrap := by rw [← hinit]; rfl
  have hidle : r.sched.core.idle = idle := by rw [← hinit]; rfl
  have hleft : (r.sched.task bootstrap).quantumLeft = quantumTicks := by
    rw [← hinit, setTask_self]
  refine ⟨fun _ hzero => ?_, fun heq => ?_⟩
  · rw [hcurrent, hleft] at hzero
    exact absurd hzero hquantum
  · rw [hcurrent, hidle] at heq
    exact absurd heq.symm hne

/-- One event of a run keeps the requests, up to a selection that is not cut short. -/
theorem GoodRun.requests (h : GoodRun r ready sleepers) {event : SchedEvent}
    (hen : schedEnabled r event) (hexec : schedExec r event = some r') :
    (r'.selections = r.selections ∧ Requests r.sched r'.sched) ∨
      (r'.selections = r.selections + 1 ∧ Requested r'.sched) := by
  cases event with
  | write t node =>
    cases hexec
    refine Or.inl ⟨rfl, requests_setTask fun heq => absurd h.inv.current ?_⟩
    rw [← heq]
    exact hen
  | call call =>
    obtain ⟨r'', ok, ready', sleepers', hexec', hcall, -, hselections, -, -⟩ := h.call call
    rw [hexec] at hexec'
    cases hexec'
    by_cases hselects : callSelections r.sched call = 0
    · refine Or.inl ⟨?_, callExec_requests h.inv hcall hselects⟩
      rw [hselections, hselects, Nat.add_zero]
    · right
      cases call with
      | select force =>
        rw [callSelections] at hselects hselections
        cases hstays : selectStays r.sched force with
        | true => exact absurd (if_pos hstays) hselects
        | false =>
          rw [hstays] at hselections
          have hs : r'.sched = (schedCoreSelect r.sched force).1 :=
            (congrArg Prod.fst (Option.some.inj hcall)).symm
          rw [hs]
          exact ⟨hselections, requested_of_select h.inv hstays⟩
      | _ => exact absurd rfl hselects

theorem requested_of_reachable (h : SchedReachable r) :
    (∃ ready sleepers, GoodRun r ready sleepers) ∧ Requested r.sched := by
  have hstart : ∀ r, schedStart r →
      (∃ ready sleepers, GoodRun r ready sleepers) ∧ Requested r.sched :=
    fun r hr => ⟨⟨[], [], goodRun_start hr⟩, requested_of_start hr⟩
  refine h.invariant hstart ?_
  rintro r event r' ⟨⟨ready, sleepers, hgood⟩, hreq⟩ hen hexec
  refine ⟨hgood.step hen hexec, ?_⟩
  rcases hgood.requests hen hexec with ⟨-, hkeep⟩ | ⟨-, hselected⟩
  · exact hkeep.requested hreq
  · exact hselected

/-- A request survives every run without a selection. -/
theorem request_kept (hgood : GoodRun r ready sleepers) (hreq : r.sched.core.reschedule = true)
    (hrun : SchedContinues r r') :
    r.selections ≤ r'.selections ∧
      (r'.selections = r.selections → r'.sched.core.reschedule = true) := by
  have hstart : ∀ r1, r1 = r → (∃ ready sleepers, GoodRun r1 ready sleepers) ∧
      r.selections ≤ r1.selections ∧
      (r1.selections = r.selections → r1.sched.core.reschedule = true) := by
    rintro r1 rfl
    exact ⟨⟨ready, sleepers, hgood⟩, Nat.le_refl _, fun _ => hreq⟩
  refine (hrun.invariant hstart ?_).2
  rintro r1 event r2 ⟨⟨ready1, sleepers1, hgood1⟩, hle, hkept⟩ hen hexec
  refine ⟨hgood1.step hen hexec, ?_⟩
  rcases hgood1.requests hen hexec with ⟨hsame, hkeep⟩ | ⟨hmore, -⟩
  · rw [hsame]
    exact ⟨hle, fun heq => hkeep.kept (hkept heq)⟩
  · refine ⟨hmore ▸ Nat.le_succ_of_le hle, fun heq => ?_⟩
    omega

/-- Preemption control. In every reachable state the tasks other than the current one have not
disabled preemption; if the current task has, it runs, and every call leaves it the current task and
running. A request for a switch is there when the quantum of the current task is used up and when a
task is ready while the idle task is current; it stays until a selection that is not cut short, and
once preemption is enabled it is reported and the next selection serves it. -/
theorem sched_preemption_control (h : SchedReachable r) :
    (∀ t ∈ registered r.sched, t ≠ r.sched.core.current → (r.sched.task t).preemptDepth = 0) ∧
    (0 < (r.sched.task r.sched.core.current).preemptDepth →
      (r.sched.task r.sched.core.current).state = .running ∧
      ∀ call, ∃ s' ok, callExec r.sched call = some (s', ok) ∧
        s'.core.current = r.sched.core.current ∧
        (s'.task r.sched.core.current).state = .running) ∧
    (r.sched.core.current ≠ r.sched.core.idle →
      (r.sched.task r.sched.core.current).quantumLeft = 0 → r.sched.core.reschedule = true) ∧
    (r.sched.core.current = r.sched.core.idle → readyQueue r.sched ≠ [] →
      r.sched.core.reschedule = true) ∧
    (r.sched.core.reschedule = true → ∀ r', SchedContinues r r' → r'.selections = r.selections →
      r'.sched.core.reschedule = true) ∧
    (r.sched.core.reschedule = true → (r.sched.task r.sched.core.current).preemptDepth = 0 →
      schedCoreReschedulePending r.sched = true ∧ ∀ force, selectStays r.sched force = false) := by
  obtain ⟨⟨ready, sleepers, hgood⟩, hreq⟩ := requested_of_reachable h
  have hinv := hgood.inv
  refine ⟨fun t ht hne => ?_, fun hdepth => ⟨?_, fun call => ?_⟩, hreq.quantum,
    fun heq hready => ?_, fun hset r' hrun => (request_kept hgood hset hrun).2,
    fun hset hdepth => ⟨?_, fun force => ?_⟩⟩
  · exact (hinv.queues.registry.sound t ht).depth_eq_zero (Or.inl hne)
  · exact ((hinv.queues.registry.sound _ hinv.current).depth (Nat.ne_of_gt hdepth)).2
  · obtain ⟨s', ok, -, -, hcall, -⟩ := callExec_spec hinv call
    exact ⟨s', ok, hcall, callExec_holds hinv (Nat.ne_of_gt hdepth) hcall⟩
  · refine hreq.arrived heq fun hhead => hready ?_
    rw [readyQueue, hhead]
    rfl
  · exact decide_eq_true ⟨schedCoreValidate_of_inv hinv, hset, hdepth⟩
  · rw [selectStays, decide_eq_false_iff_not, hset, hdepth]
    simp

/-- The quantum of the first task ends while it has disabled preemption twice: the request outlives
a tick, two selections that are cut short and the two calls that enable preemption again. -/
theorem sched_preemption_control_nested : ∃ r r', SchedReachable r ∧
    (r.sched.task 16).preemptDepth = 2 ∧ r.sched.core.current = 16 ∧
    r.sched.core.reschedule = true ∧ SchedContinues r r' ∧ r'.selections = r.selections ∧
    (r'.sched.task 16).preemptDepth = 0 ∧ r'.sched.core.reschedule = true := by
  let calls : List SchedCall := [.add 24, .preemptDisable, .preemptDisable, .tick 1, .tick 2]
  let later : List SchedCall :=
    [.select true, .preemptEnable, .tick 3, .select false, .preemptEnable]
  have hbefore : ((tinyAfter calls).sched.task 16).preemptDepth = 2 ∧
      (tinyAfter calls).sched.core.current = 16 ∧
      ((tinyAfter calls).sched.task 16).quantumLeft = 0 ∧
      (tinyAfter calls).sched.core.idle = 8 := by decide +kernel
  have hafter : ((tinyAfter (calls ++ later)).sched.task 16).preemptDepth = 0 ∧
      (tinyAfter (calls ++ later)).selections = (tinyAfter calls).selections := by decide +kernel
  obtain ⟨hdepth, hcurrent, hleft, hidle⟩ := hbefore
  have hreach := tinyAfter_reachable calls
  have hcontinues := tinyAfter_continues calls later
  obtain ⟨-, -, hquantum, -, hkept, -⟩ := sched_preemption_control hreach
  have hset : (tinyAfter calls).sched.core.reschedule = true := by
    refine hquantum ?_ ?_
    · rw [hcurrent, hidle]
      decide
    · rw [hcurrent]
      exact hleft
  exact ⟨_, _, hreach, hdepth, hcurrent, hset, hcontinues, hafter.2, hafter.1,
    hkept hset _ hcontinues hafter.2⟩

end Run

end Utamo.Sched
