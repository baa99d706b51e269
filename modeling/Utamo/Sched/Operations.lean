import Mathlib.Data.List.TakeWhile
import Utamo.Sched.Moves

/-!
# The operations keep the queues in order

One specification for each operation of `sched_core.c`, on a core in order: the operation returns,
the core is in order again, and the two lists are the old ones with what the operation moved.
`Untouched` says which tasks an operation leaves as they were.
-/

set_option autoImplicit false

namespace Utamo.Sched

open Lib Lib.Ledger

variable {s s' s'' : SchedMachine} {ready sleepers : List Nat} {t : Nat}
  {touched : Nat → Prop} {u now : Nat}

/-- Tasks outside `touched` keep their state, deadline and preemption depth. -/
structure Untouched (s s' : SchedMachine) (touched : Nat → Prop) : Prop where
  self : s'.self = s.self
  idle : s'.core.idle = s.core.idle
  state : ∀ u, ¬ touched u → (s'.task u).state = (s.task u).state
  wakeTick : ∀ u, ¬ touched u → (s'.task u).wakeTick = (s.task u).wakeTick
  depth : ∀ u, ¬ touched u → (s'.task u).preemptDepth = (s.task u).preemptDepth

theorem Untouched.refl (s : SchedMachine) (touched : Nat → Prop) : Untouched s s touched :=
  ⟨rfl, rfl, fun _ _ => rfl, fun _ _ => rfl, fun _ _ => rfl⟩

theorem Untouched.trans (h : Untouched s s' touched)
    (h' : Untouched s' s'' touched) : Untouched s s'' touched :=
  ⟨h'.self.trans h.self, h'.idle.trans h.idle, fun u hu => (h'.state u hu).trans (h.state u hu),
    fun u hu => (h'.wakeTick u hu).trans (h.wakeTick u hu),
    fun u hu => (h'.depth u hu).trans (h.depth u hu)⟩

theorem Untouched.mono {touched' : Nat → Prop} (h : Untouched s s' touched)
    (hle : ∀ u, touched u → touched' u) : Untouched s s' touched' :=
  ⟨h.self, h.idle, fun u hu => h.state u fun ht => hu (hle u ht),
    fun u hu => h.wakeTick u fun ht => hu (hle u ht), fun u hu => h.depth u fun ht => hu (hle u ht)⟩

/-- Tasks that change in nothing but their pointer and their accounting. -/
theorem Untouched.of_nodes (hself : s'.self = s.self)
    (hidle : s'.core.idle = s.core.idle)
    (hnode : ∀ u, ¬ touched u → ∃ next runTicks quantumLeft,
      s'.task u = { s.task u with next, runTicks, quantumLeft }) : Untouched s s' touched := by
  refine ⟨hself, hidle, fun u hu => ?_, fun u hu => ?_, fun u hu => ?_⟩
  all_goals
    obtain ⟨_, _, _, heq⟩ := hnode u hu
    rw [heq]

theorem Step.untouched (h : Step s s' t) : Untouched s s' (· = t) :=
  .of_nodes h.self h.idle fun u hu => ⟨_, _, _, h.others u hu⟩

theorem Pushed.untouched {link : Option Nat} (h : Pushed s s' t link) : Untouched s s' (· = t) :=
  .of_nodes h.self (by rw [h.core]) fun u hu => ⟨_, _, _, h.others u hu⟩

theorem untouched_setTask (s : SchedMachine) (t : Nat) (node : SchedTask) :
    Untouched s (s.setTask t node) (· = t) :=
  .of_nodes rfl rfl fun _ hu => ⟨_, _, _, setTask_of_ne hu⟩

/-! ## Putting a task into the FIFO -/

theorem Pushed.registered_eq {link : Option Nat} (h : Pushed s s' t link) :
    registered s' = registered s := by
  rw [registered, registered, h.core]

/-- A push completes the invariant: what was missing is a task on its way. -/
theorem SchedInv.of_push (hq : Queues s ready sleepers t) (ht : t ∈ registered s)
    (hdepth : (s.task t).preemptDepth = 0) (hcurrent : s.core.current ∈ registered s)
    (hlate : ∀ u ∈ sleepers, s.core.now < (s.task u).wakeTick) :
    SchedInv (readyPush s t) (ready ++ [t]) sleepers ∧
    Pushed s (readyPush s t) t ready.getLast? := by
  obtain ⟨hpush, hq'⟩ := hq.push ht hdepth
  refine ⟨⟨hq', ?_, hpush.pending, fun u hu => ?_⟩, hpush⟩
  · rw [hpush.registered_eq, hpush.core]
    exact hcurrent
  · have hut : u ≠ t := fun heq => hq.moved_sleep (heq ▸ hu)
    rw [hpush.core, hpush.others u hut]
    exact hlate u hu

/-! ## Registration -/

section Add

theorem registerTask_self (s : SchedMachine) (slot t : Nat) :
    (registerTask s slot t).task t = newTask s := Function.update_self ..

theorem registerTask_of_ne {slot : Nat} (h : u ≠ t) : (registerTask s slot t).task u = s.task u :=
  Function.update_of_ne h _ _

/-- The registry with a new task. -/
theorem Registry.register (h : Registry s) {slot : Nat} (hslot : slot < schedMaxTasks)
    (hfree : s.core.tasks slot = 0) (ht0 : t ≠ 0) (hnew : t ∉ registered s)
    (hid : s.core.nextId ≠ uint64Max) :
    registered (registerTask s slot t) = insert t (registered s) ∧
    Registry (registerTask s slot t) := by
  have hslotUsed : slotUsed (s.core.tasks slot) = false := by
    rw [hfree]
    rfl
  have htUsed := slotUsed_iff.2 ht0
  have hset : registered (registerTask s slot t) = insert t (registered s) :=
    keys_take hslot hslotUsed htUsed
  have hpos := h.nextId
  have hle := h.nextId_le
  have hid' : (registerTask s slot t).core.nextId = s.core.nextId + 1 := by
    have hmax : uint64Max = 2 ^ 64 - 1 := rfl
    exact addU64_of_lt (by omega)
  have hself := registerTask_self s slot t
  have hothers : ∀ u ∈ registered s, (registerTask s slot t).task u = s.task u :=
    fun u hu => registerTask_of_ne fun heq => hnew (heq ▸ hu)
  refine ⟨hset, h.initialized, h.self, h.quantum,
    by omega, by omega, h.distinct.take hnew, ?_, ?_, ?_, ?_⟩
  · have hcard : (occupied slotUsed schedMaxTasks (registerTask s slot t).core.tasks).card = _ :=
      card_take hslot hslotUsed htUsed
    rw [hcard, ← h.count]
    rfl
  · -- The new id is above all others.
    intro u v hu hv heq
    rw [hset] at hu hv
    rcases hu with rfl | hu
    · rcases hv with rfl | hv
      · rfl
      · rw [hself, hothers v hv] at heq
        exact absurd heq.symm (Nat.ne_of_lt (h.sound v hv).id_lt)
    · rcases hv with rfl | hv
      · rw [hself, hothers u hu] at heq
        exact absurd heq (Nat.ne_of_lt (h.sound u hu).id_lt)
      · rw [hothers u hu, hothers v hv] at heq
        exact h.ids u v hu hv heq
  · rw [hset]
    exact Or.inr h.idle
  · intro u hu
    rw [hset] at hu
    rcases hu with rfl | hu
    · refine ⟨?_, ?_, ?_, ?_, ?_⟩ <;> rw [hself]
      · rfl
      · rw [hid']
        exact Nat.lt_succ_self _
      · refine iff_of_false (fun hzero => ?_) fun heq => hnew (heq ▸ h.idle)
        have hzero' : s.core.nextId = 0 := hzero
        omega
      · exact le_refl _
      · exact fun hzero => absurd rfl hzero
    · have hsound := h.sound u hu
      refine ⟨?_, ?_, ?_, ?_, ?_⟩ <;> rw [hothers u hu]
      · exact hsound.owner
      · rw [hid']
        exact hsound.id_lt.trans (Nat.lt_succ_self _)
      · exact hsound.idle_iff
      · exact hsound.quantum
      · exact hsound.depth

/-- The core with a new task, which is on its way to the FIFO. -/
theorem Queues.register (h : Queues s ready sleepers 0) {slot : Nat} (hslot : slot < schedMaxTasks)
    (hfree : s.core.tasks slot = 0) (ht0 : t ≠ 0) (hnew : t ∉ registered s)
    (hid : s.core.nextId ≠ uint64Max) :
    registered (registerTask s slot t) = insert t (registered s) ∧
      Queues (registerTask s slot t) ready sleepers t := by
  obtain ⟨hset, hreg⟩ := h.registry.register hslot hfree ht0 hnew hid
  refine ⟨hset, h.reregister hreg rfl (fun u hu => registerTask_of_ne hu) (fun u hut => ?_)
    (fun heq => hnew (heq ▸ h.registry.idle)) (fun hmem => hnew ((h.ready_iff t).1 hmem).1)
    (fun hmem => hnew ((h.sleep_iff t).1 hmem).1) (fun _ => rfl) fun _ _ hut => hut⟩
  rw [hset]
  exact ⟨fun hu => hu.resolve_left hut, Or.inr⟩

/-- A registry that is not full has a free slot. -/
theorem Registry.free_slot (h : Registry s) (hfull : s.core.taskCount ≠ schedMaxTasks) :
    ∃ slot, firstIndex 0 schedMaxTasks (fun i => decide (s.core.tasks i = 0)) = slot ∧
      slot < schedMaxTasks ∧ s.core.tasks slot = 0 := by
  rcases firstIndex_cases 0 schedMaxTasks fun i => decide (s.core.tasks i = 0) with
    ⟨-, hnone⟩ | ⟨i, heq, -, hi, htest⟩
  · refine absurd ?_ hfull
    rw [h.count]
    have hall : occupied slotUsed schedMaxTasks s.core.tasks = Finset.range schedMaxTasks := by
      refine Finset.filter_true_of_mem fun i hi => ?_
      rw [Finset.mem_range] at hi
      exact slotUsed_iff.2 (of_decide_eq_false (hnone i (Nat.zero_le i) hi))
    rw [hall, Finset.card_range]
  · rw [decide_eq_true_eq] at htest
    exact ⟨i, heq, hi, htest⟩

/-- `sched_core_add` refuses, or the task enters the FIFO. -/
theorem schedCoreAdd_spec (h : SchedInv s ready sleepers) (t : Nat) :
    schedCoreAdd s t = some (s, false) ∨
    ∃ s', schedCoreAdd s t = some (s', true) ∧ t ∉ registered s ∧
      SchedInv s' (ready ++ [t]) sleepers ∧ Untouched s s' (· = t) ∧
      registered s' = insert t (registered s) ∧ s'.core.now = s.core.now ∧
      s'.core.current = s.core.current := by
  have hvalid := schedCoreValidate_of_inv h
  rw [schedCoreAdd]
  split
  · exact Or.inl rfl
  rename_i hargs
  simp only [hvalid, not_true_eq_false, false_or, not_or, not_not] at hargs
  obtain ⟨ht0, howner, hfull, hid⟩ := hargs
  right
  obtain ⟨slot, heq, hslot, hfree⟩ := h.queues.registry.free_slot hfull
  have hnew : t ∉ registered s := by
    intro hmem
    have hself := (h.queues.registry.sound t hmem).owner
    rw [howner] at hself
    exact h.queues.registry.self hself.symm
  obtain ⟨hset, hq⟩ := h.queues.register hslot hfree ht0 hnew hid
  simp only [heq]
  rw [if_neg (Nat.ne_of_lt hslot)]
  have ht : t ∈ registered (registerTask s slot t) := by
    rw [hset]
    exact Set.mem_insert t _
  have hdepth : ((registerTask s slot t).task t).preemptDepth = 0 := by
    rw [registerTask_self]
    rfl
  have hcurrent : (registerTask s slot t).core.current ∈ registered (registerTask s slot t) := by
    rw [hset]
    exact Or.inr h.current
  have hlate : ∀ u ∈ sleepers,
      (registerTask s slot t).core.now < ((registerTask s slot t).task u).wakeTick := by
    intro u hu
    have hut : u ≠ t := fun hu' => hq.moved_sleep (hu' ▸ hu)
    rw [registerTask_of_ne hut]
    exact h.deadlines u hu
  have hbefore : Untouched s (registerTask s slot t) (· = t) :=
    .of_nodes rfl rfl fun u hu => ⟨_, _, _, registerTask_of_ne hu⟩
  obtain ⟨hinv, hpush⟩ := SchedInv.of_push hq ht hdepth hcurrent hlate
  exact ⟨_, rfl, hnew, hinv, hbefore.trans hpush.untouched, hpush.registered_eq.trans hset,
    by rw [hpush.core]; rfl, by rw [hpush.core]; rfl⟩

end Add

/-! ## Time -/

section Tick

/-- The accounting of a tick. -/
theorem chargeCurrent_spec (h : Queues s ready sleepers 0) :
    Queues (chargeCurrent s) ready sleepers 0 ∧ Untouched s (chargeCurrent s) (fun _ => False) ∧
      (chargeCurrent s).core.tasks = s.core.tasks ∧
      (chargeCurrent s).core.current = s.core.current ∧
      (chargeCurrent s).core.now = s.core.now ∧
      (s.core.reschedule = true → (chargeCurrent s).core.reschedule = true) := by
  rw [chargeCurrent]
  simp only
  split
  swap
  · exact ⟨h, .refl s _, rfl, rfl, rfl, fun hreq => hreq⟩
  rename_i hruns
  rw [currentRuns_iff] at hruns
  have huntouched : ∀ (core : SchedCore) (runTicks quantumLeft : Nat), core.idle = s.core.idle →
      Untouched s ({ s with core }.setTask s.core.current
        { s.task s.core.current with runTicks, quantumLeft }) (fun _ => False) := by
    intro core runTicks quantumLeft hidle
    refine .of_nodes rfl hidle fun u _ => ?_
    by_cases hu : u = s.core.current
    · rw [hu, setTask_self]
      exact ⟨_, _, _, rfl⟩
    · exact ⟨_, _, _, setTask_of_ne hu⟩
  have hdepth : ∀ node : SchedTask, node.state = (s.task s.core.current).state →
      node.preemptDepth ≠ 0 → s.core.current = s.core.current ∧ node.state = .running :=
    fun node hstate _ => ⟨rfl, hstate.trans hruns⟩
  split
  · -- A task other than the idle one uses up its quantum.
    refine ⟨?_, ?_, rfl, rfl, rfl, fun hreq => ?_⟩
    · refine (h.of_core s.core.now s.core.ticks s.core.switches _).account rfl rfl rfl rfl rfl ?_ ?_
      · intro hq
        simp only
        split
        · exact (Nat.sub_le _ 1).trans hq
        · exact hq
      · exact fun _ => hdepth _ rfl
    · exact huntouched _ _ _ rfl
    · show (s.core.reschedule || _) = true
      rw [hreq, Bool.true_or]
  · exact ⟨h.account rfl rfl rfl rfl rfl (fun hq => hq) fun _ => hdepth _ rfl,
      huntouched _ _ _ rfl, rfl, rfl, rfl, fun hreq => hreq⟩

/-- The sleepers whose deadline has come. -/
def expired (s : SchedMachine) (now : Nat) (sleepers : List Nat) : List Nat :=
  sleepers.takeWhile fun t => (s.task t).wakeTick ≤ now

/-- The sleepers whose deadline is still to come. -/
def unexpired (s : SchedMachine) (now : Nat) (sleepers : List Nat) : List Nat :=
  sleepers.dropWhile fun t => (s.task t).wakeTick ≤ now

theorem mem_unexpired
    (hsorted : sleepers.Pairwise fun t u => (s.task t).wakeTick ≤ (s.task u).wakeTick) :
    t ∈ unexpired s now sleepers ↔ t ∈ sleepers ∧ now < (s.task t).wakeTick := by
  induction sleepers with
  | nil => simp [unexpired]
  | cons u sleepers ih =>
    rw [List.pairwise_cons] at hsorted
    rw [unexpired, List.dropWhile_cons]
    split
    · rename_i hu
      rw [decide_eq_true_eq] at hu
      have hrest := ih hsorted.2
      rw [unexpired] at hrest
      rw [hrest, List.mem_cons]
      constructor
      · rintro ⟨hmem, hlt⟩
        exact ⟨Or.inr hmem, hlt⟩
      · rintro ⟨rfl | hmem, hlt⟩
        · omega
        · exact ⟨hmem, hlt⟩
    · rename_i hu
      rw [decide_eq_true_eq, Nat.not_le] at hu
      refine ⟨fun hmem => ⟨hmem, ?_⟩, fun hmem => hmem.1⟩
      rcases List.mem_cons.1 hmem with rfl | hmem
      · exact hu
      · exact hu.trans_le (hsorted.1 t hmem)

/-- Both depend on the deadlines only. -/
theorem expired_congr (now : Nat) (h : ∀ t ∈ sleepers, (s'.task t).wakeTick = (s.task t).wakeTick) :
    expired s' now sleepers = expired s now sleepers ∧
      unexpired s' now sleepers = unexpired s now sleepers := by
  induction sleepers with
  | nil => exact ⟨rfl, rfl⟩
  | cons u sleepers ih =>
    obtain ⟨h1, h2⟩ := ih fun t ht => h t (List.mem_cons_of_mem u ht)
    rw [expired, expired] at h1
    rw [unexpired, unexpired] at h2
    rw [expired, expired, unexpired, unexpired, List.takeWhile_cons, List.takeWhile_cons,
      List.dropWhile_cons, List.dropWhile_cons, h u List.mem_cons_self, h1, h2]
    exact ⟨rfl, rfl⟩

theorem expired_append_unexpired (s : SchedMachine) (now : Nat) (sleepers : List Nat) :
    expired s now sleepers ++ unexpired s now sleepers = sleepers := List.takeWhile_append_dropWhile

theorem mem_expired
    (hsorted : sleepers.Pairwise fun t u => (s.task t).wakeTick ≤ (s.task u).wakeTick) :
    t ∈ expired s now sleepers ↔ t ∈ sleepers ∧ (s.task t).wakeTick ≤ now := by
  constructor
  · intro ht
    have hdue := List.mem_takeWhile_imp ht
    rw [decide_eq_true_eq] at hdue
    exact ⟨(List.takeWhile_sublist _).subset ht, hdue⟩
  · rintro ⟨ht, hdue⟩
    rw [← expired_append_unexpired s now sleepers] at ht
    refine (List.mem_append.1 ht).resolve_right fun hlater => ?_
    exact absurd hdue (Nat.not_le_of_lt ((mem_unexpired hsorted).1 hlater).2)

/-- What the loop of `sched_core_tick` leaves alone. -/
structure Expiry (s s' : SchedMachine) (moved : List Nat) : Prop where
  untouched : Untouched s s' (· ∈ moved)
  tasks : s'.core.tasks = s.core.tasks
  current : s'.core.current = s.core.current
  now : s'.core.now = s.core.now
  requested : s.core.reschedule = true → s'.core.reschedule = true
  pending : (s.currentRuns = false → s.core.reschedule = true) → s'.currentRuns = false →
    s'.core.reschedule = true

/-- One round: the first sleeper goes to the FIFO. -/
theorem expire_round (h : Queues s ready (u :: sleepers) 0) :
    ∃ s1, s1 = { s with core := { s.core with sleepHead := s.next u } } ∧
      Queues (readyPush s1 u) (ready ++ [u]) sleepers 0 ∧ Expiry s (readyPush s1 u) [u] := by
  refine ⟨_, rfl, ?_⟩
  have hmem : u ∈ u :: sleepers := List.mem_cons_self
  obtain ⟨hu, -, hstate⟩ := (h.sleep_iff u).1 hmem
  have hfirst : Queues s ready ([] ++ u :: sleepers) 0 := h
  obtain ⟨hstep, hq⟩ := hfirst.unlink rfl
  generalize hs1 : s.writeLink ([] : List Nat).getLast? (s.next u) = s1 at hstep hq
  have hcore : s1.core = { s.core with sleepHead := s.next u } := by rw [← hs1]; rfl
  have hs1' : s1 = { s with core := { s.core with sleepHead := s.next u } } := by rw [← hs1]; rfl
  have hdepth : (s1.task u).preemptDepth = 0 := by
    rw [hs1']
    exact (h.registry.sound u hu).depth_eq_zero (Or.inr (by rw [hstate]; exact nofun))
  have hu1 : u ∈ registered s1 := by
    rw [hstep.registered_eq]
    exact hu
  obtain ⟨hpush, hq'⟩ := hq.push hu1 hdepth
  rw [← hs1']
  refine ⟨hq', ?_, ?_, ?_, ?_, ?_, fun _ => hpush.pending⟩
  · exact (hstep.untouched.trans hpush.untouched).mono fun v hv => List.mem_singleton.2 hv
  · rw [hpush.core]
    exact hstep.tasks
  · rw [hpush.core]
    exact hstep.current
  · rw [hpush.core, hcore]
  · intro hreq
    refine hpush.requested ?_
    rw [hcore]
    exact hreq

theorem Expiry.trans {moved moved' : List Nat} (h : Expiry s s' moved) (h' : Expiry s' s'' moved') :
    Expiry s s'' (moved ++ moved') := by
  refine ⟨?_, h'.tasks.trans h.tasks, h'.current.trans h.current, h'.now.trans h.now,
    fun hreq => h'.requested (h.requested hreq), fun hpend => h'.pending (h.pending hpend)⟩
  have h1 : Untouched s s' (· ∈ moved ++ moved') :=
    h.untouched.mono fun u hu => List.mem_append_left _ hu
  have h2 : Untouched s' s'' (· ∈ moved ++ moved') :=
    h'.untouched.mono fun u hu => List.mem_append_right _ hu
  exact h1.trans h2

/-- The loop of `sched_core_tick` moves the expired sleepers, in their order, to the FIFO. -/
theorem expireSleepers_spec (now : Nat) :
    ∀ {sleepers ready : List Nat} {s : SchedMachine} {fuel : Nat},
    Queues s ready sleepers 0 → sleepers.length < fuel →
    ∃ s', expireSleepers now fuel s = some s' ∧
      Queues s' (ready ++ expired s now sleepers) (unexpired s now sleepers) 0 ∧
      Expiry s s' (expired s now sleepers) := by
  intro sleepers
  induction sleepers with
  | nil =>
    intro ready s fuel h hfuel
    cases fuel with
    | zero => cases hfuel
    | succ fuel =>
      have hnil : s.core.sleepHead = 0 := h.sleep_list
      have hstop : ¬ (s.core.sleepHead ≠ 0 ∧ (s.task s.core.sleepHead).wakeTick ≤ now) :=
        fun hc => hc.1 hnil
      rw [expireSleepers, if_neg hstop]
      refine ⟨s, rfl, ?_, .refl s _, rfl, rfl, rfl, fun hreq => hreq, fun hpend => hpend⟩
      rw [expired, List.takeWhile_nil, List.append_nil]
      exact h
  | cons u sleepers ih =>
    intro ready s fuel h hfuel
    cases fuel with
    | zero => cases hfuel
    | succ fuel =>
      obtain ⟨hhead, hu0, -⟩ := h.sleep_list
      rw [expireSleepers, hhead, expired, unexpired, List.takeWhile_cons, List.dropWhile_cons]
      by_cases hdue : (s.task u).wakeTick ≤ now
      · obtain ⟨s1, hs1, hq, hround⟩ := expire_round h
        obtain ⟨s', hloop, hq', hrest⟩ := ih hq (Nat.lt_of_succ_lt_succ hfuel)
        rw [if_pos ⟨hu0, hdue⟩, if_pos (by rw [decide_eq_true_eq]; exact hdue),
          if_pos (by rw [decide_eq_true_eq]; exact hdue)]
        -- The deadlines of the others are the same after the round.
        have hnodup := List.nodup_cons.1 h.sleep_nodup
        obtain ⟨hexp, hunexp⟩ := expired_congr now fun v (hv : v ∈ sleepers) =>
          hround.untouched.wakeTick v fun hmem => hnodup.1 (List.mem_singleton.1 hmem ▸ hv)
        rw [hexp, hunexp] at hq'
        rw [hexp] at hrest
        refine ⟨s', ?_, ?_, hround.trans hrest⟩
        · rw [hs1] at hloop
          exact hloop
        · rw [List.append_assoc, List.singleton_append] at hq'
          exact hq'
      · rw [if_neg fun hc => hdue hc.2, if_neg (by rw [decide_eq_true_eq]; exact hdue),
          if_neg (by rw [decide_eq_true_eq]; exact hdue)]
        refine ⟨s, rfl, ?_, .refl s _, rfl, rfl, rfl, fun hreq => hreq, fun hpend => hpend⟩
        rw [List.append_nil]
        exact h

/-- `sched_core_tick` refuses to go back in time, and otherwise moves the sleepers whose deadline
has come, in the order of the list, to the FIFO. -/
theorem schedCoreTick_spec (h : SchedInv s ready sleepers) (now : Nat) :
    (now < s.core.now ∧ schedCoreTick s now = some (s, false)) ∨
    (s.core.now ≤ now ∧ ∃ s', schedCoreTick s now = some (s', true) ∧
      SchedInv s' (ready ++ expired s now sleepers) (unexpired s now sleepers) ∧
      Untouched s s' (· ∈ expired s now sleepers) ∧ registered s' = registered s ∧
      s'.core.now = now ∧ s'.core.current = s.core.current) := by
  have hvalid := schedCoreValidate_of_inv h
  by_cases hlt : now < s.core.now
  · exact Or.inl ⟨hlt, by rw [schedCoreTick, if_pos (Or.inr hlt)]⟩
  right
  refine ⟨Nat.not_lt.1 hlt, ?_⟩
  have hargs : ¬ (¬ schedCoreValidate s = true ∨ now < s.core.now) := by
    rw [hvalid]
    simp [hlt]
  rw [schedCoreTick, if_neg hargs]
  simp only
  -- The clock first, then the accounting, then the sleepers.
  have hq0 := h.queues.of_core now (increment s.core.ticks) s.core.switches s.core.reschedule
  generalize hs0 : ({ s with core := { s.core with now, ticks := increment s.core.ticks } } :
    SchedMachine) = s0
  have hq0' : Queues s0 ready sleepers 0 := by
    rw [← hs0]
    exact hq0
  obtain ⟨hq1, huntouched1, htasks1, hcurrent1, hnow1, hreq1⟩ := chargeCurrent_spec hq0'
  obtain ⟨s', hloop, hq', hexpiry⟩ :=
    expireSleepers_spec now hq1 (Nat.lt_succ_of_le h.queues.sleep_length_le)
  have hsame : ∀ u, ((chargeCurrent s0).task u).wakeTick = (s.task u).wakeTick := by
    intro u
    rw [huntouched1.wakeTick u not_false, ← hs0]
  obtain ⟨hexp, hunexp⟩ := expired_congr now fun u (_ : u ∈ sleepers) => hsame u
  rw [hexp, hunexp] at hq'
  rw [hexp] at hexpiry
  have hnow : s'.core.now = now := by rw [hexpiry.now, hnow1, ← hs0]
  have htasks : s'.core.tasks = s.core.tasks := by rw [hexpiry.tasks, htasks1, ← hs0]
  have hcurrent : s'.core.current = s.core.current := by rw [hexpiry.current, hcurrent1, ← hs0]
  have hset : registered s' = registered s := by rw [registered, registered, htasks]
  have hbefore : Untouched s (chargeCurrent s0) (· ∈ expired s now sleepers) := by
    have hcore : Untouched s s0 (fun _ => False) := by
      rw [← hs0]
      exact .of_nodes rfl rfl fun _ _ => ⟨_, _, _, rfl⟩
    exact (hcore.trans huntouched1).mono fun _ hf => hf.elim
  have huntouched := hbefore.trans hexpiry.untouched
  refine ⟨s', by rw [hloop]; rfl, ⟨hq', ?_, ?_, fun u hu => ?_⟩, huntouched, hset, hnow, hcurrent⟩
  · rw [hcurrent, hset]
    exact h.current
  · refine hexpiry.pending fun hruns => hreq1 ?_
    rw [← hs0]
    refine h.pending ?_
    rw [SchedMachine.currentRuns, hcurrent1, huntouched1.state _ not_false, ← hs0] at hruns
    exact hruns
  · -- What is left has a later deadline than the clock.
    obtain ⟨hmem, hlate⟩ := (mem_unexpired h.queues.sleep_sorted).1 hu
    have hnot : u ∉ expired s now sleepers := fun hexpired =>
      absurd ((mem_expired h.queues.sleep_sorted).1 hexpired).2 (Nat.not_le_of_lt hlate)
    rw [hnow, huntouched.wakeTick u hnot]
    exact hlate

end Tick

/-! ## Selection -/

section Select

/-- The tasks that enter the FIFO in a selection: the current one if it runs and is not idle. -/
def requeued (s : SchedMachine) : List Nat :=
  if s.currentRuns ∧ s.core.current ≠ s.core.idle then [s.core.current] else []

/-- What a selection that is not cut short returns: the head of the FIFO, or the idle task. -/
def selected (s : SchedMachine) (ready : List Nat) : Nat :=
  (ready ++ requeued s).headD s.core.idle

/-- The running task is in no list. -/
theorem SchedInv.mark_current (h : SchedInv s ready sleepers)
    (hruns : (s.task s.core.current).state = .running) (hidle : s.core.current ≠ s.core.idle) :
    Queues s ready sleepers s.core.current :=
  h.queues.mark h.current hidle (by rw [hruns]; exact nofun) (by rw [hruns]; exact nofun)

/-- After the running task has been put aside nobody is current. -/
theorem requeueCurrent_spec (h : SchedInv s ready sleepers)
    (hdepth : (s.task s.core.current).preemptDepth = 0) :
    Queues { requeueCurrent s with core := { (requeueCurrent s).core with current := 0 } }
        (ready ++ requeued s) sleepers 0 ∧
      Untouched s (requeueCurrent s) (fun u => s.currentRuns = true ∧ u = s.core.current) ∧
      (requeueCurrent s).core.tasks = s.core.tasks ∧
      (requeueCurrent s).core.now = s.core.now ∧
      (requeueCurrent s).core.quantumTicks = s.core.quantumTicks := by
  have hq := h.queues
  cases hruns : s.currentRuns with
  | false =>
    have hstate : requeueCurrent s = s := by simp [requeueCurrent, hruns]
    have hlist : requeued s = [] := by simp [requeued, hruns]
    rw [hstate, hlist, List.append_nil]
    exact ⟨hq.leave hruns, .refl s _, rfl, rfl, rfl⟩
  | true =>
    have hstate := currentRuns_iff.1 hruns
    have hothers : ∀ u, u ∈ registered s → u ≠ s.core.current →
        (s.task u).state ≠ .running ∧ (s.task u).preemptDepth = 0 := by
      intro u hu hne
      exact ⟨fun hrun => hne ((hq.settled u hu (ne_zero_of_registered hu)).running hrun),
        (hq.registry.sound u hu).depth_eq_zero (Or.inl hne)⟩
    by_cases hidle : s.core.current = s.core.idle
    · have hresult : requeueCurrent s =
          s.setTask s.core.idle { s.task s.core.idle with state := .ready } := by
        simp [requeueCurrent, hruns, hidle]
      have hlist : requeued s = [] := by simp [requeued, hidle]
      rw [hresult, hlist, List.append_nil]
      have hsound := hq.registry.sound _ hq.registry.idle
      have hsettled := hq.settled _ hq.registry.idle hq.idle_ne
      rw [hidle] at hstate hdepth hothers
      have hstopped : AllStopped s := fun u hu hui => hothers u hu hui
      have huntouched : Untouched s
          (s.setTask s.core.idle { s.task s.core.idle with state := .ready })
          (fun u => True ∧ u = s.core.current) :=
        (untouched_setTask s _ _).mono fun u hu => ⟨trivial, hu.trans hidle.symm⟩
      refine ⟨?_, huntouched.mono fun u hu => ⟨rfl, hu.2⟩, rfl, rfl, rfl⟩
      refine hq.setIdle _ 0 hstopped rfl rfl hsound.quantum hdepth hq.idle_next ?_ ?_
      · exact hsettled.awake (by rw [hstate]; simp)
      · rw [if_neg (ne_zero_of_registered hq.registry.idle)]
    · have hresult : requeueCurrent s = readyPush s s.core.current := by
        simp [requeueCurrent, hruns, hidle]
      have hlist : requeued s = [s.core.current] := by simp [requeued, hruns, hidle]
      rw [hresult, hlist]
      -- The running task goes to the end of the FIFO.
      obtain ⟨hpush, hq'⟩ := (h.mark_current hstate hidle).push h.current hdepth
      refine ⟨hq'.leave ?_, hpush.untouched.mono fun u hu => ⟨rfl, hu⟩,
        by rw [hpush.core], by rw [hpush.core], by rw [hpush.core]⟩
      have hcurrent : (readyPush s s.core.current).core.current = s.core.current := by
        rw [hpush.core]
      rw [SchedMachine.currentRuns, hcurrent, hpush.node]
      rfl

/-- The node of a task that is selected. -/
def dispatchedNode (s : SchedMachine) (t : Nat) : SchedTask :=
  { s.task t with next := 0, state := .running, wakeTick := 0, quantumLeft := s.core.quantumTicks }

/-- The task taken off the FIFO becomes the current one. -/
theorem dispatch_head {t : Nat} (h : Queues s (t :: ready) sleepers 0)
    (hcurrent : s.core.current = 0) (switches : Nat) :
    Queues { s.setTask t (dispatchedNode s t) with
        core := { s.core with readyHead := s.next t
                              readyTail := if s.next t = 0 then 0 else s.core.readyTail
                              current := t, reschedule := false, switches } } ready sleepers 0 := by
  have ht := ((h.ready_iff t).1 List.mem_cons_self).1
  obtain ⟨hstep, hpop⟩ := h.pop rfl
  have ht' := ht
  rw [← hstep.registered_eq] at ht'
  have hdepth : (s.task t).preemptDepth = 0 :=
    (h.registry.sound t ht).depth_eq_zero (Or.inl (hcurrent ▸ ne_zero_of_registered ht))
  have hnode : Queues (SchedMachine.setTask _ t (dispatchedNode s t)) ready sleepers t :=
    hpop.modify ht' rfl rfl (fun _ => le_refl _) fun hne => absurd hdepth hne
  have hself := setTask_self s t (dispatchedNode s t)
  have henter := hnode.enter ht' hcurrent (congrArg SchedTask.state hself)
    (congrArg SchedTask.next hself) (congrArg SchedTask.wakeTick hself)
  exact henter.of_core s.core.now s.core.ticks switches false

/-- With an empty FIFO the idle task becomes the current one. -/
theorem dispatch_idle (h : Queues s [] sleepers 0) (hcurrent : s.core.current = 0)
    (switches : Nat) :
    Queues { s.setTask s.core.idle (dispatchedNode s s.core.idle) with
        core := { s.core with current := s.core.idle, reschedule := false, switches } }
      [] sleepers 0 := by
  have hstopped : ∀ u, u ∈ registered s →
      (s.task u).state ≠ .running ∧ (s.task u).preemptDepth = 0 := by
    intro u hu
    have hu0 : u ≠ s.core.current := hcurrent ▸ ne_zero_of_registered hu
    exact ⟨fun hrun => hu0 ((h.settled u hu (ne_zero_of_registered hu)).running hrun),
      (h.registry.sound u hu).depth_eq_zero (Or.inl hu0)⟩
  have hstate : (dispatchedNode s s.core.idle).state =
      if s.core.idle = s.core.idle then .running else .ready := by
    rw [if_pos rfl]
    rfl
  have hidle :=
    h.setIdle (dispatchedNode s s.core.idle) s.core.idle (fun u hu _ => hstopped u hu) rfl
    rfl (le_refl _) (hstopped _ h.registry.idle).2 rfl rfl hstate
  exact hidle.of_core s.core.now s.core.ticks switches false

/-- The core after a selection that is not cut short: `s0` is the core after the running task was
put aside, and only the selected task differs from it. -/
structure Dispatched (s s0 s' : SchedMachine) (t : Nat) : Prop where
  tasks : s'.core.tasks = s.core.tasks
  now : s'.core.now = s.core.now
  current : s'.core.current = t
  self : s'.self = s0.self
  idle : s'.core.idle = s0.core.idle
  others : ∀ u, u ≠ t → s'.task u = s0.task u
  running : (s'.task t).state = .running

theorem Dispatched.spec {s0 : SchedMachine} {ready' : List Nat} (h : SchedInv s ready sleepers)
    (huntouched : Untouched s s0 (fun u => s.currentRuns = true ∧ u = s.core.current))
    (hd : Dispatched s s0 s' t) (hq : Queues s' ready' sleepers 0) (ht : t ∈ registered s) :
    SchedInv s' ready' sleepers ∧
      Untouched s s' (fun u => (s.currentRuns = true ∧ u = s.core.current) ∨ u = t) ∧
      registered s' = registered s ∧ s'.core.now = s.core.now ∧ s'.core.current = t ∧
      s'.currentRuns = true := by
  have hset : registered s' = registered s := by rw [registered, registered, hd.tasks]
  have hlast : Untouched s0 s' (fun u => (s.currentRuns = true ∧ u = s.core.current) ∨ u = t) :=
    .of_nodes hd.self hd.idle fun u hu => ⟨_, _, _, hd.others u fun heq => hu (Or.inr heq)⟩
  have hall := (huntouched.mono fun u hu => Or.inl hu).trans hlast
  have hruns : s'.currentRuns = true := by
    rw [SchedMachine.currentRuns, hd.current, hd.running]
    rfl
  refine ⟨⟨hq, ?_, fun hc => ?_, fun u hu => ?_⟩, hall, hset, hd.now, hd.current, hruns⟩
  · rw [hd.current, hset]
    exact ht
  · rw [hruns] at hc
    cases hc
  · -- A sleeper is neither the task that ran nor the one that runs now.
    have hbefore := ((h.queues.sleep_iff u).1 hu).2.2
    have hafter := ((hq.sleep_iff u).1 hu).2.2
    have hnot : ¬ ((s.currentRuns = true ∧ u = s.core.current) ∨ u = t) := by
      rintro (⟨hrun, rfl⟩ | rfl)
      · rw [currentRuns_iff, hbefore] at hrun
        cases hrun
      · rw [hd.running] at hafter
        cases hafter
    rw [hd.now, hall.wakeTick u hnot]
    exact h.deadlines u hu

/-- `sched_core_select` is cut short, or it takes the head of the FIFO, into which the running task
has gone before. -/
theorem schedCoreSelect_spec (h : SchedInv s ready sleepers) (force : Bool) :
    (selectStays s force = true ∧ schedCoreSelect s force = (s, s.core.current)) ∨
    (selectStays s force = false ∧ ∃ s', schedCoreSelect s force = (s', selected s ready) ∧
      SchedInv s' (ready ++ requeued s).tail sleepers ∧
      Untouched s s' (fun u => (s.currentRuns = true ∧ u = s.core.current) ∨ u = selected s ready) ∧
      registered s' = registered s ∧ s'.core.now = s.core.now ∧
      s'.core.current = selected s ready ∧ s'.currentRuns = true) := by
  have hvalid := schedCoreValidate_of_inv h
  rw [schedCoreSelect, if_neg (by rw [hvalid]; simp)]
  cases hstays : selectStays s force with
  | true => exact Or.inl ⟨rfl, by simp⟩
  | false =>
    right
    refine ⟨rfl, ?_⟩
    have hdepth : (s.task s.core.current).preemptDepth = 0 := by
      rw [selectStays, decide_eq_false_iff_not, not_or, not_not] at hstays
      exact hstays.1
    obtain ⟨hq, huntouched, htasks, hnow, hquantum⟩ := requeueCurrent_spec h hdepth
    simp only [Bool.false_eq_true, if_false]
    have hset : registered (requeueCurrent s) = registered s := by
      rw [registered, registered, htasks]
    generalize requeueCurrent s = s0 at hq huntouched htasks hnow hquantum hset ⊢
    rw [selected]
    cases hlist : ready ++ requeued s with
    | nil =>
      rw [hlist] at hq
      have hhead : s0.core.readyHead = 0 := hq.ready_list
      have htake : takeNext s0 = (s0, s0.core.idle) := by simp [takeNext, hhead]
      have hmem : s0.core.idle ∈ registered s := hset ▸ hq.registry.idle
      have hq' := dispatch_idle hq rfl
      simp only [htake]
      rw [List.headD_nil, ← huntouched.idle]
      refine ⟨_, rfl, Dispatched.spec h huntouched ?_ (hq' _) hmem⟩
      have hself := setTask_self s0 s0.core.idle (dispatchedNode s0 s0.core.idle)
      exact ⟨htasks, hnow, rfl, rfl, rfl, fun u hu => setTask_of_ne hu,
        congrArg SchedTask.state hself⟩
    | cons t rest =>
      rw [hlist] at hq
      obtain ⟨hhead, ht0, -⟩ := hq.ready_list
      have hhead' : s0.core.readyHead = t := hhead
      have htake : takeNext s0 = ({ s0 with core := { s0.core with
          readyHead := s0.next t
          readyTail := if s0.next t = 0 then 0 else s0.core.readyTail } }, t) := by
        simp [takeNext, hhead', ht0]
      have hmem : t ∈ registered s := hset ▸ ((hq.ready_iff t).1 List.mem_cons_self).1
      have hq' := dispatch_head hq rfl
      simp only [htake]
      rw [List.headD_cons, List.tail_cons]
      refine ⟨_, rfl, Dispatched.spec h huntouched ?_ (hq' _) hmem⟩
      have hself := setTask_self s0 t (dispatchedNode s0 t)
      exact ⟨htasks, hnow, rfl, rfl, rfl, fun u hu => setTask_of_ne hu,
        congrArg SchedTask.state hself⟩

end Select

/-! ## Waiting -/

section Wait

/-- A task that may wait is the running one, is not idle, and is in no list. -/
theorem SchedInv.can_wait (h : SchedInv s ready sleepers) (hwait : currentCanWait s = true) :
    s.core.current ≠ s.core.idle ∧ (s.task s.core.current).state = .running ∧
      (s.task s.core.current).preemptDepth = 0 ∧ Queues s ready sleepers s.core.current := by
  rw [currentCanWait, decide_eq_true_eq] at hwait
  obtain ⟨-, hidle, hruns, hdepth⟩ := hwait
  rw [currentRuns_iff] at hruns
  exact ⟨hidle, hruns, hdepth, h.mark_current hruns hidle⟩

/-- `sched_core_block_current` and `sched_core_exit_current`. -/
theorem stopCurrent_spec (h : SchedInv s ready sleepers) {state : SchedState}
    (hstate : state = .blocked ∨ state = .zombie) :
    (currentCanWait s = false ∧ stopCurrent s state = (s, false)) ∨
    (currentCanWait s = true ∧ ∃ s', stopCurrent s state = (s', true) ∧ SchedInv s' ready sleepers ∧
      Untouched s s' (· = s.core.current) ∧ (s'.task s.core.current).state = state ∧
      registered s' = registered s ∧ s'.core.now = s.core.now ∧
      s'.core.current = s.core.current) := by
  rw [stopCurrent]
  cases hwait : currentCanWait s with
  | false => exact Or.inl ⟨rfl, by simp⟩
  | true =>
    right
    refine ⟨rfl, ?_⟩
    obtain ⟨-, hruns, hdepth, hq⟩ := h.can_wait hwait
    simp only [not_true_eq_false, if_false]
    refine ⟨_, rfl, ?_⟩
    have hsettled := h.queues.settled _ h.current (ne_zero_of_registered h.current)
    have hwake := hsettled.awake (by rw [hruns]; simp)
    have hnext := hsettled.loose (by rw [hruns]; simp) (by rw [hruns]; simp)
    have hnode : Queues (s.setTask s.core.current { s.task s.core.current with state })
        ready sleepers s.core.current :=
      hq.modify h.current rfl rfl (fun hqu => hqu) fun hne => absurd hdepth hne
    have hself := setTask_self s s.core.current { s.task s.core.current with state }
    have hsettled' : TaskSettled (s.setTask s.core.current { s.task s.core.current with state })
        s.core.current := by
      refine ⟨fun _ => rfl, ?_, ?_⟩ <;> rw [hself]
      · exact fun _ => hwake
      · exact fun _ _ => hnext
    have hq' := hnode.settle h.current hsettled'
      (by rw [hself]; rcases hstate with rfl | rfl <;> simp)
      (by rw [hself]; rcases hstate with rfl | rfl <;> simp)
    have huntouched := untouched_setTask s s.core.current { s.task s.core.current with state }
    refine ⟨⟨hq'.of_core s.core.now s.core.ticks s.core.switches true, h.current, fun _ => rfl, ?_⟩,
      { huntouched with }, congrArg SchedTask.state hself, rfl, rfl, rfl⟩
    intro u hu
    have hne : u ≠ s.core.current := fun heq => hq.moved_sleep (heq ▸ hu)
    exact (huntouched.wakeTick u hne).symm ▸ h.deadlines u hu

/-- The place of a sleeper is behind all tasks with the same deadline or an earlier one. -/
theorem linkSleeper_spec (h : Queues s ready sleepers t) (ht : t ∈ registered s)
    (hstate : (s.task t).state = .sleeping) (hlength : sleepers.length ≤ schedMaxTasks)
    {deadline : Nat} (hdeadline : (s.task t).wakeTick = deadline) :
    ∃ s', linkSleeper s t = some s' ∧ Step s s' t ∧ s'.core.now = s.core.now ∧
      (s'.task t).wakeTick = deadline ∧
      Queues s' ready (expired s deadline sleepers ++ t :: unexpired s deadline sleepers) 0 := by
  have hsplit := expired_append_unexpired s deadline sleepers
  have hlist := h.sleep_list
  rw [← hsplit] at hlist
  obtain ⟨mid, hfirst, hsecond⟩ := segment_append.1 hlist
  have hdue : ∀ u ∈ expired s deadline sleepers, (s.task u).wakeTick ≤ deadline :=
    fun u hu => ((mem_expired h.sleep_sorted).1 hu).2
  have hgo : ∀ u ∈ expired s deadline sleepers,
      decide (u ≠ 0 ∧ (s.task u).wakeTick ≤ (s.task t).wakeTick) = true := by
    intro u hu
    rw [decide_eq_true_eq, hdeadline]
    exact ⟨hfirst.ne_null hu, hdue u hu⟩
  have hlate : ∀ u ∈ unexpired s deadline sleepers, deadline < (s.task u).wakeTick :=
    fun u hu => ((mem_unexpired h.sleep_sorted).1 hu).2
  have hstop : decide (mid ≠ 0 ∧ (s.task mid).wakeTick ≤ (s.task t).wakeTick) = false := by
    rw [decide_eq_false_iff_not, hdeadline]
    rintro ⟨hmid0, hle⟩
    cases hrest : unexpired s deadline sleepers with
    | nil =>
      rw [hrest] at hsecond
      exact hmid0 hsecond
    | cons u rest =>
      rw [hrest] at hsecond hlate
      obtain ⟨rfl, -, -⟩ := hsecond
      exact absurd (hlate mid List.mem_cons_self) (Nat.not_lt.2 hle)
  have hfuel : (expired s deadline sleepers).length < schedMaxTasks + 1 :=
    Nat.lt_succ_of_le ((List.takeWhile_prefix _).length_le.trans hlength)
  rw [← hsplit] at h
  obtain ⟨hstep, hq⟩ := h.link ht hstate (fun u hu => hdeadline.symm ▸ hdue u hu)
    (fun u hu => hdeadline.symm ▸ (hlate u hu).le) rfl
  rw [linkSleeper, hfirst.seek_head hgo hstop hfuel]
  refine ⟨_, rfl, hstep, ?_, ?_, hq⟩
  · rw [core_writeLink]
    rfl
  · rw [task_writeLink, setTask_self]
    exact hdeadline

/-- `sched_core_sleep_current` refuses, or the current task goes to sleep behind all tasks with the
same deadline or an earlier one. -/
theorem schedCoreSleepCurrent_spec (h : SchedInv s ready sleepers) (delay : Nat) :
    ((currentCanWait s = false ∨ delay = 0 ∨ uint64Max - s.core.now < delay) ∧
      schedCoreSleepCurrent s delay = some (s, false)) ∨
    (currentCanWait s = true ∧ delay ≠ 0 ∧ s.core.now + delay ≤ uint64Max ∧
      ∃ s', schedCoreSleepCurrent s delay = some (s', true) ∧
        SchedInv s' ready (expired s (s.core.now + delay) sleepers ++ s.core.current ::
          unexpired s (s.core.now + delay) sleepers) ∧
        Untouched s s' (· = s.core.current) ∧
        (s'.task s.core.current).wakeTick = s.core.now + delay ∧ registered s' = registered s ∧
        s'.core.now = s.core.now ∧ s'.core.current = s.core.current) := by
  rw [schedCoreSleepCurrent]
  split
  · rename_i hargs
    rw [Bool.not_eq_true] at hargs
    exact Or.inl ⟨hargs, rfl⟩
  rename_i hargs
  simp only [not_or, not_not] at hargs
  obtain ⟨hwait, hdelay, hfits⟩ := hargs
  have hsum : s.core.now + delay ≤ uint64Max := by omega
  have hdeadline : addU64 s.core.now delay = s.core.now + delay := by
    refine addU64_of_lt ?_
    have hmax : uint64Max = 2 ^ 64 - 1 := rfl
    omega
  right
  refine ⟨hwait, hdelay, hsum, ?_⟩
  obtain ⟨-, hruns, hdepth, hq⟩ := h.can_wait hwait
  rw [hdeadline]
  -- The task with its new state and deadline, still in no list.
  generalize hnode : (s.task s.core.current).asleep (s.core.now + delay) = node
  have hself := setTask_self s s.core.current node
  have hstate1 : ((s.setTask s.core.current node).task s.core.current).state = .sleeping := by
    rw [hself, ← hnode]
    rfl
  have hwake1 : ((s.setTask s.core.current node).task s.core.current).wakeTick =
      s.core.now + delay := by
    rw [hself, ← hnode]
    rfl
  have hq1 : Queues (s.setTask s.core.current node) ready sleepers s.core.current := by
    rw [← hnode]
    exact hq.modify h.current rfl rfl (fun hqu => hqu) fun hne => absurd hdepth hne
  have huntouched1 := untouched_setTask s s.core.current node
  obtain ⟨s', hlink, hstep, hnow, hwake, hq'⟩ :=
    linkSleeper_spec hq1 h.current hstate1 h.queues.sleep_length_le hwake1
  have hmem : s.core.current ∉ sleepers := hq.moved_sleep
  obtain ⟨hexp, hunexp⟩ := expired_congr (s.core.now + delay) fun u (hu : u ∈ sleepers) =>
    huntouched1.wakeTick u fun heq => hmem (heq ▸ hu)
  rw [hexp, hunexp] at hq'
  have huntouched := huntouched1.trans hstep.untouched
  rw [← hnode] at hlink
  simp only [hlink, Option.bind_eq_bind, Option.bind_some, Option.pure_def]
  refine ⟨_, rfl, ⟨hq'.of_core s'.core.now s'.core.ticks s'.core.switches true, ?_, fun _ => rfl,
      fun u hu => ?_⟩, { huntouched with }, hwake, hstep.registered_eq, hnow, hstep.current⟩
  · have hcurrent : s'.core.current ∈ registered s' := by
      rw [hstep.registered_eq, hstep.current]
      exact h.current
    exact hcurrent
  · have hlate : s.core.now < (s'.task u).wakeTick := by
      by_cases hut : u = s.core.current
      · rw [hut, hwake]
        omega
      · rw [huntouched.wakeTick u hut]
        refine h.deadlines u ?_
        rw [← expired_append_unexpired s (s.core.now + delay) sleepers]
        rcases List.mem_append.1 hu with hu | hu
        · exact List.mem_append_left _ hu
        · exact List.mem_append_right _ ((List.mem_cons.1 hu).resolve_left hut)
    exact hnow.symm ▸ hlate

/-- `sched_core_wake` refuses, or the task goes from where it waits to the FIFO. -/
theorem schedCoreWake_spec (h : SchedInv s ready sleepers) (t : Nat) :
    ((t ∉ registered s ∨ ((s.task t).state ≠ .blocked ∧ (s.task t).state ≠ .sleeping)) ∧
      schedCoreWake s t = some (s, false)) ∨
    (t ∈ registered s ∧ ((s.task t).state = .blocked ∨ (s.task t).state = .sleeping) ∧
      ∃ s', schedCoreWake s t = some (s', true) ∧ SchedInv s' (ready ++ [t]) (sleepers.erase t) ∧
        Untouched s s' (· = t) ∧ registered s' = registered s ∧ s'.core.now = s.core.now ∧
        s'.core.current = s.core.current) := by
  have hvalid := schedCoreValidate_of_inv h
  rw [schedCoreWake]
  split
  · rename_i hargs
    left
    refine ⟨?_, rfl⟩
    rcases hargs with h1 | h1 | h1
    · exact absurd hvalid h1
    · exact Or.inl (taskSlot_eq_max.1 h1)
    · exact Or.inr h1
  rename_i hargs
  rw [not_or, not_or] at hargs
  obtain ⟨-, hslot, hstate⟩ := hargs
  rw [taskSlot_eq_max, not_not] at hslot
  have hwaits : (s.task t).state = .blocked ∨ (s.task t).state = .sleeping := by
    by_contra hnot
    rw [not_or] at hnot
    exact hstate hnot
  right
  refine ⟨hslot, hwaits, ?_⟩
  have hq := h.queues
  have hother : (s.task t).state ≠ .running ∧ (s.task t).state ≠ .ready := by
    rcases hwaits with hw | hw <;> rw [hw] <;> exact ⟨nofun, nofun⟩
  have hdepth := (hq.registry.sound t hslot).depth_eq_zero (Or.inr hother.1)
  have hidle : t ≠ s.core.idle := by
    rintro rfl
    have hst := hq.idle_state
    split at hst
    · exact hother.1 hst
    · exact hother.2 hst
  by_cases hsleeping : (s.task t).state = .sleeping
  · -- The sleeper is found in the list and taken off.
    have hmem : t ∈ sleepers := (hq.sleep_iff t).2 ⟨hslot, ne_zero_of_registered hslot, hsleeping⟩
    obtain ⟨before, after, rfl⟩ := List.append_of_mem hmem
    have hnodup := hq.sleep_nodup
    have hbefore : t ∉ before := by
      rw [List.nodup_append] at hnodup
      exact fun hb => hnodup.2.2 t hb t List.mem_cons_self rfl
    have herase : (before ++ t :: after).erase t = before ++ after := by
      rw [List.erase_append_right _ hbefore, List.erase_cons_head]
    have hlength := hq.sleep_length_le
    obtain ⟨mid, hfirst, rfl, -, -⟩ := segment_append.1 hq.sleep_list
    have hgo : ∀ u ∈ before, decide (u ≠ mid) = true := by
      intro u hu
      rw [decide_eq_true_eq]
      rintro rfl
      exact hbefore hu
    have hfuel : before.length < schedMaxTasks + 1 := by
      rw [List.length_append] at hlength
      omega
    obtain ⟨hstep, hq1⟩ := hq.unlink rfl
    have hunlink : unlinkSleeper s mid = some (s.writeLink before.getLast? (s.next mid)) := by
      rw [unlinkSleeper, hfirst.seek_head hgo (by simp) hfuel]
      rfl
    have hcore1 := core_writeLink s before.getLast? (s.next mid)
    have htask1 := task_writeLink s before.getLast? (s.next mid)
    simp only [if_pos hsleeping, hunlink, Option.bind_eq_bind, Option.bind_some, Option.pure_def]
    generalize s.writeLink before.getLast? (s.next mid) = s1 at hstep hq1 hcore1 htask1
    have hmem1 : mid ∈ registered s1 := by
      rw [hstep.registered_eq]
      exact hslot
    obtain ⟨hinv, hpush⟩ := SchedInv.of_push hq1 hmem1 (by rw [htask1]; exact hdepth)
      (by rw [hstep.current, hstep.registered_eq]; exact h.current)
      (fun u hu => by
        rw [htask1, hcore1]
        refine h.deadlines u ?_
        rcases List.mem_append.1 hu with hu | hu
        · exact List.mem_append_left _ hu
        · exact List.mem_append_right _ (List.mem_cons_of_mem mid hu))
    rw [herase]
    exact ⟨_, rfl, hinv, hstep.untouched.trans hpush.untouched,
      hpush.registered_eq.trans hstep.registered_eq, by rw [hpush.core, hcore1],
      by rw [hpush.core, hcore1]⟩
  · have hmark := hq.mark hslot hidle hother.2 hsleeping
    obtain ⟨hinv, hpush⟩ := SchedInv.of_push hmark hslot hdepth h.current h.deadlines
    simp only [if_neg hsleeping, Option.bind_eq_bind, Option.bind_some, Option.pure_def]
    rw [List.erase_of_not_mem (hq.notMem_sleepers hsleeping)]
    exact ⟨_, rfl, hinv, hpush.untouched, hpush.registered_eq,
      by rw [hpush.core], by rw [hpush.core]⟩

end Wait

/-! ## Removal -/

theorem unregisterTask_self (s : SchedMachine) (slot t : Nat) :
    (unregisterTask s slot t).task t = .zero := Function.update_self ..

theorem unregisterTask_of_ne {slot : Nat} (h : u ≠ t) :
    (unregisterTask s slot t).task u = s.task u := Function.update_of_ne h _ _

/-- The registry without a task. -/
theorem Registry.unregister (h : Registry s) (ht : t ∈ registered s) (hidle : s.core.idle ≠ t) :
    registered (unregisterTask s (taskSlot s.core t) t) = registered s \ {t} ∧
      Registry (unregisterTask s (taskSlot s.core t) t) := by
  obtain ⟨hslot, hslotTask⟩ := taskSlot_spec ht
  have hused : slotUsed (s.core.tasks (taskSlot s.core t)) = true := by
    rw [hslotTask]
    exact slotUsed_iff.2 (ne_zero_of_registered ht)
  have hset : registered (unregisterTask s (taskSlot s.core t) t) = registered s \ {t} := by
    have hdrop : registered (unregisterTask s (taskSlot s.core t) t) = _ :=
      keys_drop hslot hused rfl h.distinct
    rw [hdrop, hslotTask]
    rfl
  have hothers : ∀ u, u ≠ t → (unregisterTask s (taskSlot s.core t) t).task u = s.task u :=
    fun u hu => unregisterTask_of_ne hu
  refine ⟨hset, h.initialized, h.self, h.quantum, h.nextId, h.nextId_le, h.distinct.drop rfl,
    ?_, ?_, ?_, ?_⟩
  · have hcard : (occupied slotUsed schedMaxTasks
        (unregisterTask s (taskSlot s.core t) t).core.tasks).card + 1 = _ :=
      card_drop hslot hused rfl
    have hcount := h.count
    show s.core.taskCount - 1 = _
    omega
  · intro u v hu hv heq
    rw [hset] at hu hv
    rw [hothers u hu.2, hothers v hv.2] at heq
    exact h.ids u v hu.1 hv.1 heq
  · rw [hset]
    exact ⟨h.idle, hidle⟩
  · intro u hu
    rw [hset] at hu
    have hsound := h.sound u hu.1
    refine ⟨?_, ?_, ?_, ?_, ?_⟩ <;> rw [hothers u hu.2]
    · exact hsound.owner
    · exact hsound.id_lt
    · exact hsound.idle_iff
    · exact hsound.quantum
    · exact hsound.depth

/-- The core without a task that is in no list. -/
theorem Queues.unregister (h : Queues s ready sleepers 0) (ht : t ∈ registered s)
    (hidle : s.core.idle ≠ t) (hready : t ∉ ready) (hsleep : t ∉ sleepers) :
    registered (unregisterTask s (taskSlot s.core t) t) = registered s \ {t} ∧
      Queues (unregisterTask s (taskSlot s.core t) t) ready sleepers 0 := by
  obtain ⟨hset, hreg⟩ := h.registry.unregister ht hidle
  refine ⟨hset, h.reregister hreg rfl (fun u hu => unregisterTask_of_ne hu) (fun u hut => ?_) hidle
    hready hsleep (fun hmem => ?_) fun u hu _ => ne_zero_of_registered hu⟩
  · rw [hset]
    exact ⟨And.left, fun hu => ⟨hu, hut⟩⟩
  · rw [hset] at hmem
    exact absurd rfl hmem.2

/-- `sched_core_remove_zombie` refuses, or the task is no longer registered. -/
theorem schedCoreRemoveZombie_spec (h : SchedInv s ready sleepers) (t : Nat) :
    ((t ∉ registered s ∨ t = s.core.current ∨ t = s.core.idle ∨ (s.task t).state ≠ .zombie) ∧
      schedCoreRemoveZombie s t = (s, false)) ∨
    (t ∈ registered s ∧ t ≠ s.core.current ∧ t ≠ s.core.idle ∧ (s.task t).state = .zombie ∧
      ∃ s', schedCoreRemoveZombie s t = (s', true) ∧ SchedInv s' ready sleepers ∧
        Untouched s s' (· = t) ∧ registered s' = registered s \ {t} ∧ s'.task t = .zero ∧
        s'.core.now = s.core.now ∧ s'.core.current = s.core.current) := by
  have hvalid := schedCoreValidate_of_inv h
  rw [schedCoreRemoveZombie, if_neg (by rw [hvalid]; simp)]
  simp only
  split
  · rename_i hargs
    left
    refine ⟨?_, rfl⟩
    rw [taskSlot_eq_max] at hargs
    exact hargs
  rename_i hargs
  rw [taskSlot_eq_max] at hargs
  simp only [not_or, not_not] at hargs
  obtain ⟨ht, hcurrent, hidle, hstate⟩ := hargs
  right
  refine ⟨ht, hcurrent, hidle, hstate, _, rfl, ?_⟩
  have hready : t ∉ ready := h.queues.notMem_ready (by rw [hstate]; exact nofun)
  have hsleep : t ∉ sleepers := h.queues.notMem_sleepers (by rw [hstate]; exact nofun)
  obtain ⟨hset, hq⟩ := h.queues.unregister ht (Ne.symm hidle) hready hsleep
  have hcurrentNe : s.core.current ≠ t := fun heq => hcurrent heq.symm
  have hothers : ∀ u, u ≠ t → (unregisterTask s (taskSlot s.core t) t).task u = s.task u :=
    fun u hu => unregisterTask_of_ne hu
  refine ⟨⟨hq, ?_, fun hruns => ?_, fun u hu => ?_⟩,
    .of_nodes rfl rfl fun u hu => ⟨_, _, _, hothers u hu⟩, hset,
      unregisterTask_self s _ t, rfl, rfl⟩
  · rw [hset]
    exact ⟨h.current, hcurrentNe⟩
  · refine h.pending ?_
    rw [SchedMachine.currentRuns] at hruns ⊢
    rw [← hothers _ hcurrentNe]
    exact hruns
  · have hut : u ≠ t := fun heq => hsleep (heq ▸ hu)
    rw [hothers u hut]
    exact h.deadlines u hu

/-! ## Preemption -/

/-- A change of the preemption depth of the running task. -/
theorem SchedInv.set_depth (h : SchedInv s ready sleepers) (hruns : s.currentRuns = true)
    (depth : Nat) :
    SchedInv (s.setTask s.core.current { s.task s.core.current with preemptDepth := depth }) ready
        sleepers ∧
      Untouched s (s.setTask s.core.current { s.task s.core.current with preemptDepth := depth })
        (· = s.core.current) := by
  have hstate := currentRuns_iff.1 hruns
  have hself := setTask_self s s.core.current { s.task s.core.current with preemptDepth := depth }
  have hq : Queues (s.setTask s.core.current { s.task s.core.current with preemptDepth := depth })
      ready sleepers 0 :=
    h.queues.account rfl rfl rfl rfl rfl (fun hq => hq) fun _ _ => ⟨rfl, hstate⟩
  refine ⟨⟨hq, h.current, fun hnot => ?_, fun u hu => ?_⟩, untouched_setTask s _ _⟩
  · exact absurd ((congrArg SchedTask.state hself).trans hstate) (not_currentRuns_iff.1 hnot)
  · have hne : u ≠ s.core.current := by
      rintro rfl
      exact h.queues.notMem_sleepers (by rw [hstate]; exact nofun) hu
    rw [setTask_of_ne hne]
    exact h.deadlines u hu

/-- The call fails, or the running task has changed its preemption depth. -/
def DepthOutcome (s : SchedMachine) (ready sleepers : List Nat) (result : SchedMachine × Bool) :
    Prop :=
  result = (s, false) ∨ ∃ s', result = (s', true) ∧ s.currentRuns = true ∧
    SchedInv s' ready sleepers ∧ Untouched s s' (· = s.core.current)

/-- `sched_core_preempt_disable` -/
theorem schedCorePreemptDisable_spec (h : SchedInv s ready sleepers) :
    DepthOutcome s ready sleepers (schedCorePreemptDisable s) := by
  rw [schedCorePreemptDisable]
  split
  · exact Or.inl rfl
  · rename_i hargs
    simp only [not_or, not_not] at hargs
    exact Or.inr ⟨_, rfl, hargs.2.1, h.set_depth hargs.2.1 _⟩

/-- `sched_core_preempt_enable` -/
theorem schedCorePreemptEnable_spec (h : SchedInv s ready sleepers) :
    DepthOutcome s ready sleepers (schedCorePreemptEnable s) := by
  rw [schedCorePreemptEnable]
  split
  · exact Or.inl rfl
  · rename_i hargs
    simp only [not_or, not_not] at hargs
    exact Or.inr ⟨_, rfl, hargs.2.1, h.set_depth hargs.2.1 _⟩

/-! ## The start -/

/-- The registry that `sched_core_init` fills. -/
theorem initialTasks {idle bootstrap : Nat} (hidle : idle ≠ 0) (hboot : bootstrap ≠ 0)
    (hne : idle ≠ bootstrap) {tasks : Nat → Nat}
    (htasks : tasks = Function.update (Function.update (fun _ => 0) 0 idle) 1 bootstrap) :
    keys slotUsed schedMaxTasks id tasks = {bootstrap, idle} ∧
      Distinct slotUsed schedMaxTasks id tasks ∧
      (occupied slotUsed schedMaxTasks tasks).card = 2 := by
  have hnone : keys slotUsed schedMaxTasks id (fun _ => 0) = (∅ : Set Nat) := by
    ext k
    refine iff_of_false ?_ (Set.notMem_empty k)
    rintro ⟨i, -, ⟨⟩, -⟩
  have hused : ∀ t, t ≠ 0 → slotUsed t = true := fun t => slotUsed_iff.2
  have hempty : Distinct slotUsed schedMaxTasks (id : Nat → Nat) (fun _ => 0) := by
    intro i j _ _ hi
    cases hi
  have hone : slotUsed ((Function.update (fun _ => 0) 0 idle : Nat → Nat) 1) = false := by
    rw [Function.update_of_ne (by decide)]
    rfl
  have hfirst : keys slotUsed schedMaxTasks id (Function.update (fun _ => 0) 0 idle) = {idle} := by
    rw [keys_take (by decide) rfl (hused idle hidle), hnone]
    exact insert_empty_eq idle
  rw [htasks]
  refine ⟨?_, ?_, ?_⟩
  · rw [keys_take (by decide) hone (hused bootstrap hboot), hfirst]
    rfl
  · refine (hempty.take ?_).take ?_
    · rw [hnone]
      exact Set.notMem_empty _
    · rw [hfirst]
      exact fun heq => hne (Set.mem_singleton_iff.1 heq).symm
  · rw [card_take (by decide) hone (hused bootstrap hboot),
      card_take (by decide) rfl (hused idle hidle)]
    rfl

/-- After `sched_core_init` the bootstrap task runs and both lists are empty. -/
theorem schedCoreInit_spec {idle bootstrap quantumTicks : Nat} (hself : s.self ≠ 0)
    (hinit : schedCoreInit s idle bootstrap quantumTicks now = (s', true)) : SchedInv s' [] [] := by
  rw [schedCoreInit] at hinit
  split at hinit
  · cases hinit
  rename_i hargs
  simp only [not_or] at hargs
  obtain ⟨-, hidle, hboot, hne, -, -, hquantum⟩ := hargs
  obtain ⟨hset, hdist, hcard⟩ := initialTasks hidle hboot hne rfl
  simp only [Prod.mk.injEq, and_true] at hinit
  -- The two nodes.
  have hidleNode : s'.task idle =
      { SchedTask.zero with owner := s.self, state := .ready, quantumLeft := quantumTicks } := by
    rw [← hinit, setTask_of_ne hne]
    exact setTask_self ..
  have hbootNode : s'.task bootstrap =
      { SchedTask.zero with owner := s.self, id := 1, quantumLeft := quantumTicks } := by
    rw [← hinit]
    exact setTask_self ..
  obtain ⟨self, core, task⟩ := s'
  obtain ⟨rfl, rfl, -⟩ := SchedMachine.mk.inj hinit
  have hcases := fun t => (Set.ext_iff.1 hset t).1
  refine ⟨⟨⟨rfl, hself, hquantum, le_refl 2, (by decide : 2 ≤ uint64Max), hdist, hcard.symm, ?_,
      (Set.ext_iff.1 hset idle).2 (Or.inr rfl), ?_⟩, ?_, hidle, ?_, ?_, rfl, List.nodup_nil, ?_,
      rfl, rfl, List.nodup_nil, ?_, List.Pairwise.nil⟩,
      (Set.ext_iff.1 hset bootstrap).2 (Or.inl rfl), ?_, nofun⟩
  · intro t u ht hu hid
    rcases hcases t ht with rfl | rfl <;> rcases hcases u hu with rfl | rfl
    · rfl
    · rw [hbootNode, hidleNode] at hid
      cases hid
    · rw [hbootNode, hidleNode] at hid
      cases hid
    · rfl
  · intro t ht
    rcases hcases t ht with rfl | rfl
    · refine ⟨?_, ?_, ?_, ?_, ?_⟩ <;> rw [hbootNode]
      · rfl
      · exact Nat.lt_succ_self 1
      · exact iff_of_false nofun fun heq => hne heq.symm
      · exact le_refl _
      · exact fun hz => absurd rfl hz
    · refine ⟨?_, ?_, ?_, ?_, ?_⟩ <;> rw [hidleNode]
      · rfl
      · exact Nat.zero_lt_two
      · exact iff_of_true rfl rfl
      · exact le_refl _
      · exact fun hz => absurd rfl hz
  · intro t ht _
    rcases hcases t ht with rfl | rfl
    · refine ⟨fun _ => rfl, ?_, ?_⟩ <;> rw [hbootNode]
      · exact fun _ => rfl
      · exact fun _ _ => rfl
    · refine ⟨?_, ?_, ?_⟩ <;> rw [hidleNode]
      · exact nofun
      · exact fun _ => rfl
      · exact fun _ _ => rfl
  · exact (congrArg SchedTask.state hidleNode).trans (if_neg hne).symm
  · exact congrArg SchedTask.next hidleNode
  · intro t
    refine iff_of_false List.not_mem_nil ?_
    rintro ⟨ht, -, hti, hst⟩
    rcases hcases t ht with rfl | rfl
    · rw [hbootNode] at hst
      cases hst
    · exact hti rfl
  · intro t
    refine iff_of_false List.not_mem_nil ?_
    rintro ⟨ht, -, hst⟩
    rcases hcases t ht with rfl | rfl
    · rw [hbootNode] at hst
      cases hst
    · rw [hidleNode] at hst
      cases hst
  · exact fun hnot => absurd (congrArg SchedTask.state hbootNode) (not_currentRuns_iff.1 hnot)

end Utamo.Sched
