import Utamo.KernelSpace.Invariant

/-!
# Mapping pages of the dynamic part

`vmm_map_page`, `vmm_unmap_page`, `vmm_protect_page` and `vmm_map_mmio` in a system in order. Each
of them returns, guarantees what `KernelStep` says, and changes the entries of the pages it was
called for (`LeafChanged`, `LeavesSame`). A call of `vmm_map_mmio` maps all pages of an aperture
or, when a table cannot be had, unmaps those that it has mapped; its rollback does not panic.
-/

set_option autoImplicit false

namespace Utamo.KernelSpace

open Lib Memory Pmm Vmm

variable {s s' : KernelMachine} {virt : Nat}

/-! ## Single pages -/

/-- The entry of one page is `entry`, and all others are what they were. -/
def LeafChanged (s s' : KernelMachine) (virt entry : Nat) : Prop :=
  ∀ w, InDynamic w → kernelLeaf s' w = if SamePage w virt then entry else kernelLeaf s w

theorem LeafChanged.self {entry : Nat} (h : LeafChanged s s' virt entry)
    (hvirt : InDynamic virt) : kernelLeaf s' virt = entry :=
  (h virt hvirt).trans (if_pos rfl)

theorem LeafChanged.of_ne {entry w : Nat}
    (h : LeafChanged s s' virt entry) (hw : InDynamic w) (hne : ¬ SamePage w virt) :
    kernelLeaf s' w = kernelLeaf s w := by
  rw [h w hw, if_neg hne]

/-- The addresses of one page have one entry. -/
theorem kernelLeaf_samePage {v w : Nat} (h : SamePage v w) (s : KernelMachine) :
    kernelLeaf s v = kernelLeaf s w := by
  have hindex : memoryPageIndex v 1 = memoryPageIndex w 1 := by
    rw [memoryPageIndex_eq (by decide) (by decide), memoryPageIndex_eq (by decide) (by decide)]
    rw [SamePage] at h
    exact congrArg (· % 512) h
  rw [kernelLeaf, kernelLeaf, leafAt, leafAt, path_congr h 3 (by decide), hindex]

/-- All entries are what they were. -/
def LeavesSame (s s' : KernelMachine) : Prop := ∀ w, InDynamic w → kernelLeaf s' w = kernelLeaf s w

/-- A request that `vmm_space_map` fulfils. -/
structure Mappable (s : KernelMachine) (virt phys flags : Nat) : Prop where
  align : virt % 4096 = 0
  frame : Frame (kernelMask s.context.system.kernel) phys
  flags : FlagsOk s.context.system.kernel.information.nxEnabled flags
  absent : kernelLeaf s virt = 0

section Pages

variable {map : MemoryMap} {s : KernelMachine} (h : KernelInv map s) {virt phys flags : Nat}

include h

theorem kernelMap_spec (hvirt : InDynamic virt) (hphys : phys < 2 ^ 64) (hflags : flags < 2 ^ 64) :
    ∃ s' ok, vmmSpaceMap (kernelSpace s.context.system.kernel) s virt phys flags = some (s', ok) ∧
      KernelStep map s s' ∧
      (ok = true → Mappable s virt phys flags ∧ LeafChanged s s' virt (phys ||| flags)) ∧
      (ok = false → LeavesSame s s') := by
  have hv := inDynamic_iff.1 hvirt
  obtain ⟨s', ok, hcall, hheld, huntouched, hout⟩ := vmmSpaceMap_spec h.contract (kernelSpace_on _)
    h.editing hv.lt hphys hflags fun _ => hv.own
  have hstep := h.step hheld huntouched
  refine ⟨s', ok, hcall, hstep, ?_, ?_⟩
  · rintro rfl
    cases hout with
    | mapped hrequest habsent hset =>
      refine ⟨⟨hrequest.align, hrequest.frame, hrequest.flags, habsent⟩, fun w hw => ?_⟩
      rw [kernelLeaf, hstep.kernel]
      exact hset w (inDynamic_iff.1 hw)
  · rintro rfl
    cases hout with
    | failed _ hkept _ =>
      intro w hw
      rw [kernelLeaf, hstep.kernel]
      exact hkept w (inDynamic_iff.1 hw)

theorem kernelUnmap_spec (hvirt : InDynamic virt) :
    ∃ s' ok, vmmSpaceUnmap (kernelSpace s.context.system.kernel) s virt = (s', ok) ∧
      KernelStep map s s' ∧ s'.context = s.context ∧ (ok = true → LeafChanged s s' virt 0) ∧
      (ok = false → s' = s ∧ ¬ (virt % 4096 = 0 ∧ kernelLeaf s virt ≠ 0)) := by
  have hv := inDynamic_iff.1 hvirt
  obtain ⟨s', ok, hcall, hheld, huntouched, hout⟩ :=
    vmmSpaceUnmap_spec h.contract (kernelSpace_on _)
    h.editing hv.lt fun _ => hv.own
  have hstep := h.step hheld huntouched
  cases hout with
  | unmapped _ hset hcontext =>
    refine ⟨s', true, hcall, hstep, hcontext, fun _ w hw => ?_, by rintro ⟨⟩⟩
    rw [kernelLeaf, hstep.kernel]
    exact hset w (inDynamic_iff.1 hw)
  | failed hwhy =>
    refine ⟨s, false, hcall, hstep, rfl, by rintro ⟨⟩, fun _ => ⟨rfl, ?_⟩⟩
    rintro ⟨halign, hpresent⟩
    rcases hwhy with hnot | href
    · exact hnot ⟨halign, hv.canonical, hpresent⟩
    · exact h.not_refused hv.own href

theorem kernelProtect_spec (hvirt : InDynamic virt) (hflags : flags < 2 ^ 64) :
    ∃ s' ok, vmmSpaceProtect (kernelSpace s.context.system.kernel) s virt flags = (s', ok) ∧
      KernelStep map s s' ∧
      (ok = true → FlagsOk s.context.system.kernel.information.nxEnabled flags ∧
        ∃ phys old, kernelLeaf s virt = phys ||| old ∧
          Frame (kernelMask s.context.system.kernel) phys ∧
          FlagsOk s.context.system.kernel.information.nxEnabled old ∧
          LeafChanged s s' virt (phys ||| flags)) ∧
      (ok = false → s' = s) := by
  have hv := inDynamic_iff.1 hvirt
  obtain ⟨s', ok, hcall, hheld, huntouched, hout⟩ := vmmSpaceProtect_spec h.contract
    (kernelSpace_on _) h.editing hv.lt hflags fun _ => hv.own
  have hstep := h.step hheld huntouched
  cases hout with
  | @replaced _ phys old hflagsOk _ hleaf hframe hold hset _ =>
    refine ⟨s', true, hcall, hstep,
      fun _ => ⟨hflagsOk, phys, old, hleaf, hframe, hold, ?_⟩, by rintro ⟨⟩⟩
    intro w hw
    rw [kernelLeaf, hstep.kernel]
    exact hset w (inDynamic_iff.1 hw)
  | failed _ => exact ⟨s, false, hcall, hstep, by rintro ⟨⟩, fun _ => rfl⟩

/-- What `vmm_map_page` requires besides `vmm_space_map`. -/
structure Grantable (s : KernelMachine) (virt phys flags : Nat) : Prop where
  address : dynamicAddress virt = true
  usable : ∃ region, hhdmRegion s.context.system.kernel.directMap phys memoryPageSize =
    some region ∧
    region.type = .usable
  allocated : pmmIsAllocatedPage s.context.system.pmm phys = true
  flags : flags &&& refusedFlags = 0

theorem vmmMapPage_spec (virt phys : Nat) (hflags : flags < 2 ^ 64) :
    ∃ s' ok, vmmMapPage s virt phys flags = some (s', ok) ∧ KernelStep map s s' ∧
      (ok = true → Grantable s virt phys flags ∧ Mappable s virt phys flags ∧
        LeafChanged s s' virt (phys ||| flags)) ∧
      (ok = false → LeavesSame s s') := by
  rw [vmmMapPage]
  cases hregion : hhdmRegion s.context.system.kernel.directMap phys memoryPageSize with
  | none => exact ⟨s, false, rfl, KernelStep.refl h, nofun, fun _ _ _ => rfl⟩
  | some region =>
    simp only
    split
    · rename_i hargs
      obtain ⟨-, haddress, htype, halloc, hrefused⟩ := hargs
      have hphys : phys < 2 ^ 64 := (h.system.pmm.page_usable halloc).2.1
      obtain ⟨s', ok, hcall, hstep, hok, hnot⟩ :=
        kernelMap_spec h (inDynamic_of_dynamicAddress haddress) hphys hflags
      refine ⟨s', ok, hcall, hstep, fun hres => ?_, hnot⟩
      exact ⟨⟨haddress, ⟨region, hregion, htype⟩, halloc, hrefused⟩, hok hres⟩
    · exact ⟨s, false, rfl, KernelStep.refl h, nofun, fun _ _ _ => rfl⟩

theorem vmmUnmapPage_spec (virt : Nat) :
    ∃ s' ok, vmmUnmapPage s virt = (s', ok) ∧ KernelStep map s s' ∧ s'.context = s.context ∧
      (ok = true → dynamicAddress virt = true ∧ LeafChanged s s' virt 0) ∧
      (ok = false → s' = s ∧
        ¬ (dynamicAddress virt = true ∧ virt % 4096 = 0 ∧ kernelLeaf s virt ≠ 0)) := by
  rw [vmmUnmapPage]
  split
  · rename_i hargs
    obtain ⟨s', ok, hcall, hstep, hcontext, hok, hnot⟩ :=
      kernelUnmap_spec h (inDynamic_of_dynamicAddress hargs.2)
    refine ⟨s', ok, hcall, hstep, hcontext, fun hres => ⟨hargs.2, hok hres⟩, fun hres => ?_⟩
    exact ⟨(hnot hres).1, fun hpage => (hnot hres).2 hpage.2⟩
  · rename_i hargs
    refine ⟨s, false, rfl, KernelStep.refl h, rfl, nofun, fun _ => ⟨rfl, fun hpage => hargs ?_⟩⟩
    exact ⟨h.ready, hpage.1⟩

theorem vmmProtectPage_spec (virt : Nat) (hflags : flags < 2 ^ 64) :
    ∃ s' ok, vmmProtectPage s virt flags = (s', ok) ∧ KernelStep map s s' ∧
      (ok = true → dynamicAddress virt = true ∧ flags &&& refusedFlags = 0 ∧
        FlagsOk s.context.system.kernel.information.nxEnabled flags ∧
        ∃ phys old, kernelLeaf s virt = phys ||| old ∧
          Frame (kernelMask s.context.system.kernel) phys ∧
          FlagsOk s.context.system.kernel.information.nxEnabled old ∧
          LeafChanged s s' virt (phys ||| flags)) ∧
      (ok = false → s' = s) := by
  rw [vmmProtectPage]
  split
  · rename_i hargs
    obtain ⟨s', ok, hcall, hstep, hok, hnot⟩ :=
      kernelProtect_spec h (inDynamic_of_dynamicAddress hargs.2.1) hflags
    exact ⟨s', ok, hcall, hstep, fun hres => ⟨hargs.2.1, hargs.2.2, hok hres⟩, hnot⟩
  · exact ⟨s, false, rfl, KernelStep.refl h, nofun, fun _ => rfl⟩

end Pages

/-! ## Device apertures -/

/-- Different pages of a window. -/
theorem samePage_window {a b : Nat} : SamePage (virt + 4096 * a) (virt + 4096 * b) ↔ a = b := by
  rw [SamePage]
  omega

/-- The pages `first` to `done` of a window are mapped, and nothing else has changed. -/
structure WindowMapped (map : MemoryMap) (virt physical first done : Nat) (s s' : KernelMachine) :
    Prop where
  step : KernelStep map s s'
  align : first < done → virt % 4096 = 0
  mapped : ∀ k, first ≤ k → k < done → kernelLeaf s' (virt + 4096 * k) =
    (physical + 4096 * k) ||| mmioFlags s.context.system.kernel
  packed : ∀ k, first ≤ k → k < done →
    Frame (kernelMask s.context.system.kernel) (physical + 4096 * k)
  absent : ∀ k, first ≤ k → k < done → kernelLeaf s (virt + 4096 * k) = 0
  others : ∀ w, InDynamic w → (∀ k, first ≤ k → k < done → ¬ SamePage w (virt + 4096 * k)) →
    kernelLeaf s' w = kernelLeaf s w

theorem mmioFlags_ok (kernel : KernelVmm) :
    FlagsOk kernel.information.nxEnabled (mmioFlags kernel) := by
  rw [mmioFlags]
  cases kernel.information.nxEnabled
  · exact ⟨by rw [Within]; decide, by decide, Or.inr (by decide)⟩
  · exact ⟨by rw [Within]; decide, by decide, Or.inl rfl⟩

theorem mmioFlags_lt (kernel : KernelVmm) : mmioFlags kernel < 2 ^ 64 :=
  (mmioFlags_ok kernel).within.le.trans_lt (by decide)

section Windows

variable {map : MemoryMap} {virt physical : Nat}

/-- Mapping one page more. -/
theorem WindowMapped.cons {first done : Nat} {s1 : KernelMachine} (hstep : KernelStep map s s1)
    (hmappable : Mappable s (virt + 4096 * first) (physical + 4096 * first)
      (mmioFlags s.context.system.kernel))
    (hleaf : LeafChanged s s1 (virt + 4096 * first)
      ((physical + 4096 * first) ||| mmioFlags s.context.system.kernel))
    (hin : ∀ k, first ≤ k → k < done → InDynamic (virt + 4096 * k)) (hlt : first < done)
    (hrest : WindowMapped map virt physical (first + 1) done s1 s') :
    WindowMapped map virt physical first done s s' := by
  have hkernel := hstep.kernel
  have hself := hleaf.self (hin first (le_refl _) hlt)
  refine ⟨hstep.trans hrest.step, fun _ => ?_, ?_, ?_, ?_, ?_⟩
  · have := hmappable.align
    omega
  · intro k h1 h2
    by_cases hk : k = first
    · subst hk
      rw [hrest.others _ (hin k h1 h2) fun j hj _ => ?_, hself]
      rw [samePage_window]
      omega
    · rw [hrest.mapped k (by omega) h2, hkernel]
  · intro k h1 h2
    by_cases hk : k = first
    · rw [hk]
      exact hmappable.frame
    · rw [← hkernel]
      exact hrest.packed k (by omega) h2
  · intro k h1 h2
    by_cases hk : k = first
    · rw [hk]
      exact hmappable.absent
    · rw [← hleaf.of_ne (hin k h1 h2) (fun hsame => hk (samePage_window.1 hsame))]
      exact hrest.absent k (by omega) h2
  · intro w hw hne
    rw [hrest.others w hw fun k h1 h2 => hne k (by omega) h2]
    exact hleaf.of_ne hw (hne first (le_refl _) hlt)

theorem mmioMapLoop_spec (pages first : Nat) (s : KernelMachine) (h : KernelInv map s)
    (hin : ∀ k, first ≤ k → k < first + pages → InDynamic (virt + 4096 * k))
    (hphys : ∀ k, first ≤ k → k < first + pages → physical + 4096 * k < 2 ^ 64) :
    ∃ s' done good, mmioMapLoop virt physical pages first s = some (s', done, good) ∧
      first ≤ done ∧ done ≤ first + pages ∧ (good = true → done = first + pages) ∧
      WindowMapped map virt physical first done s s' := by
  induction pages generalizing first s with
  | zero =>
    exact ⟨s, first, true, rfl, le_refl _, le_refl _, fun _ => rfl, KernelStep.refl h,
      fun hlt => by omega, fun k h1 h2 => by omega, fun k h1 h2 => by omega,
      fun k h1 h2 => by omega, fun _ _ _ => rfl⟩
  | succ pages ih =>
    obtain ⟨s1, ok, hcall, hstep, hok, hnot⟩ := kernelMap_spec h
      (hin first (le_refl _) (by omega)) (hphys first (le_refl _) (by omega))
      (mmioFlags_lt s.context.system.kernel)
    rw [mmioMapLoop]
    simp only [hcall, Option.bind_eq_bind, Option.bind_some]
    cases ok with
    | false =>
      refine ⟨s1, first, false, rfl, le_refl _, by omega, nofun, hstep, fun hlt => by omega,
        fun k h1 h2 => by omega, fun k h1 h2 => by omega, fun k h1 h2 => by omega, ?_⟩
      exact fun w hw _ => hnot rfl w hw
    | true =>
      obtain ⟨hmappable, hleaf⟩ := hok rfl
      obtain ⟨s', done, good, hrun, h1, h2, hgood, hrest⟩ := ih (first + 1) s1 hstep.inv
        (fun k hk1 hk2 => hin k (by omega) (by omega))
        (fun k hk1 hk2 => hphys k (by omega) (by omega))
      refine ⟨s', done, good, hrun, by omega, by omega, fun hg => by rw [hgood hg]; omega, ?_⟩
      exact hrest.cons hstep hmappable hleaf (fun k hk1 hk2 => hin k hk1 (by omega)) (by omega)

theorem mmioRollback_spec (done : Nat) (s : KernelMachine) (h : KernelInv map s)
    (hin : ∀ k, k < done → InDynamic (virt + 4096 * k)) (halign : 0 < done → virt % 4096 = 0)
    (hpresent : ∀ k, k < done → kernelLeaf s (virt + 4096 * k) ≠ 0) :
    ∃ s', mmioRollback virt done s = some s' ∧ KernelStep map s s' ∧
      (∀ k, k < done → kernelLeaf s' (virt + 4096 * k) = 0) ∧
      ∀ w, InDynamic w → (∀ k, k < done → ¬ SamePage w (virt + 4096 * k)) →
        kernelLeaf s' w = kernelLeaf s w := by
  induction done generalizing s with
  | zero => exact ⟨s, rfl, KernelStep.refl h, fun k hk => by omega, fun _ _ _ => rfl⟩
  | succ done ih =>
    have hvirt := halign (by omega)
    obtain ⟨s1, ok, hcall, hstep, -, hok, hnot⟩ := kernelUnmap_spec h (hin done (by omega))
    cases ok with
    | false => exact absurd ⟨by omega, hpresent done (by omega)⟩ (hnot rfl).2
    | true =>
      have hleaf := hok rfl
      obtain ⟨s', hrun, hstep', hzero, hrest⟩ := ih s1 hstep.inv
        (fun k hk => hin k (by omega)) (fun _ => hvirt) (fun k hk => by
          rw [hleaf.of_ne (hin k (by omega)) fun hsame => by
            have := samePage_window.1 hsame
            omega]
          exact hpresent k (by omega))
      refine ⟨s', ?_, hstep.trans hstep', ?_, ?_⟩
      · rw [mmioRollback, hcall]
        exact hrun
      · intro k hk
        by_cases hlast : k = done
        · subst hlast
          rw [hrest _ (hin k hk) fun j hj hsame => by
            have := samePage_window.1 hsame
            omega]
          exact hleaf.self (hin k hk)
        · exact hzero k (by omega)
      · intro w hw hne
        rw [hrest w hw fun k hk => hne k (by omega)]
        exact hleaf.of_ne hw (hne done (by omega))

/-- What `vmm_map_mmio` does: it maps a new window, or it leaves all entries as they were. -/
inductive MmioOutcome (map : MemoryMap) (s : KernelMachine) (physical bytes edx pat : Nat) :
    KernelMachine → Option Nat → Prop
  | mapped {s1 : KernelMachine} : mmioAccepted s.context physical bytes edx pat = true →
      WindowMapped map (mmioBase + s.context.mmio.used) physical 0 (bytes / 4096) s s1 →
      MmioOutcome map s physical bytes edx pat
        ⟨{ s1.context with mmio :=
            { used := s.context.mmio.used + bytes
              apertures := s.context.mmio.apertures ++ [⟨physical, physical + bytes⟩] } },
          s1.memory⟩
        (some (mmioBase + s.context.mmio.used))
  | failed {s' : KernelMachine} : KernelStep map s s' → LeavesSame s s' →
      MmioOutcome map s physical bytes edx pat s' none

/-- The arithmetic that `vmm_map_mmio` relies on. -/
theorem mmioAccepted_bounds {c : KernelSystem} {physical bytes edx pat : Nat}
    (hused : c.mmio.used ≤ mmioSize) (h : mmioAccepted c physical bytes edx pat = true) :
    c.mmio.used + bytes ≤ mmioSize ∧ physical + bytes ≤ uint64Max ∧ bytes % 4096 = 0 := by
  rw [mmioAccepted, decide_eq_true_eq] at h
  obtain ⟨-, -, hrange, hroom, -⟩ := h
  have hsize : mmioSize = 0x400000 := rfl
  rw [subU64_of_le hused (by omega)] at hroom
  rw [mmioRangeAllowed] at hrange
  split at hrange
  · cases hrange
  rename_i hargs
  simp only [not_or, not_not] at hargs
  have hmod : bytes &&& 4095 = bytes % 4096 := Nat.and_two_pow_sub_one_eq_mod bytes 12
  have hlow : bytes &&& 4095 = 0 := hargs.2.2.2.2.2.1
  refine ⟨by omega, ?_, ?_⟩
  · have hmax : uint64Max = 2 ^ 64 - 1 := rfl
    have hphysical := hargs.2.2.2.2.2.2.2
    have hpos := hargs.2.2.2.2.1
    omega
  · omega

theorem vmmMapMmio_spec (h : KernelInv map s) (physical bytes edx pat : Nat) :
    ∃ s' out, vmmMapMmio s physical bytes edx pat = some (s', out) ∧
      MmioOutcome map s physical bytes edx pat s' out := by
  have hsize : mmioSize = 0x400000 := rfl
  have hmax : uint64Max = 2 ^ 64 - 1 := rfl
  rw [vmmMapMmio]
  split
  · rename_i haccepted
    obtain ⟨hroom, hend, hmod⟩ := mmioAccepted_bounds h.window haccepted
    have hin : ∀ k, k < bytes / 4096 → InDynamic (mmioBase + s.context.mmio.used + 4096 * k) :=
      fun k hk => inDynamic_of_mmio (by omega) (by omega)
    have hphys : ∀ k, 0 ≤ k → k < 0 + bytes / 4096 → physical + 4096 * k < 2 ^ 64 :=
      fun k _ hk => by omega
    obtain ⟨s1, done, good, hrun, -, hle, hgood, hwindow⟩ := mmioMapLoop_spec (bytes / 4096) 0 s h
      (fun k _ hk => hin k (by omega)) hphys
    have hmmio := hwindow.step.mmio
    simp only [hrun, Option.bind_eq_bind, Option.bind_some, Option.pure_def]
    cases good with
    | true =>
      obtain rfl : done = bytes / 4096 := by rw [hgood rfl, Nat.zero_add]
      refine ⟨_, _, rfl, ?_⟩
      rw [hmmio, addU64_of_lt (by omega)]
      exact .mapped haccepted hwindow
    | false =>
      have hflags := mmioFlags_ok s.context.system.kernel
      obtain ⟨s', hback, hstep, hzero, hrest⟩ := mmioRollback_spec done s1 hwindow.step.inv
        (fun k hk => hin k (by omega)) hwindow.align (fun k hk => by
          rw [hwindow.mapped k (Nat.zero_le k) hk]
          exact packed_ne_zero h.tree.mask_within (hwindow.packed k (Nat.zero_le k) hk) hflags)
      simp only [Bool.false_eq_true, if_false, hback, Option.bind_some]
      refine ⟨s', none, rfl, .failed (hwindow.step.trans hstep) fun w hw => ?_⟩
      by_cases hpage : ∃ k, k < done ∧ SamePage w (mmioBase + s.context.mmio.used + 4096 * k)
      · -- A page that was mapped and unmapped again was absent before.
        obtain ⟨k, hk, hsame⟩ := hpage
        have hleaf := kernelLeaf_samePage hsame
        rw [hleaf, hleaf, hzero k hk, hwindow.absent k (Nat.zero_le k) hk]
      · rw [hrest w hw fun k hk hsame => hpage ⟨k, hk, hsame⟩]
        exact hwindow.others w hw fun k _ hk hsame => hpage ⟨k, hk, hsame⟩
  · exact ⟨s, none, rfl, .failed (KernelStep.refl h) fun _ _ => rfl⟩

end Windows

end Utamo.KernelSpace
