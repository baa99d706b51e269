import Utamo.KernelSpace.Confinement

/-!
# Device apertures

The windows that `vmm_map_mmio` hands out, over a whole run. A run keeps the list of the windows
that were returned; `WindowsHold` is what holds of that list. The windows lie one behind the other
below the cursor `used`, so a new one is behind all others; their apertures are those that the
static table has, so a new one was compared with all others; and nobody else changes an entry of a
page in the window of the devices.

Everything else that the kernel does may happen in between.
-/

set_option autoImplicit false

namespace Utamo.KernelSpace

open Lib Lib.ByteMemory Memory Pmm Vmm AddressSpace

/-! ## Runs -/

/-- A window that `vmm_map_mmio` has returned, with its arguments. -/
structure Window where
  virt : Nat
  physical : Nat
  bytes : Nat
  deriving DecidableEq, Repr

/-- The machine with the windows that were returned. -/
structure DeviceRun where
  machine : KernelMachine
  windows : List Window

def deviceExec (r : DeviceRun) : KernelEvent → Option DeviceRun
  | .mapMmio physical bytes edx pat =>
    (vmmMapMmio r.machine physical.toNat bytes.toNat edx pat).map fun result =>
      match result.2 with
      | none => ⟨result.1, r.windows⟩
      | some virt => ⟨result.1, r.windows ++ [⟨virt, physical.toNat, bytes.toNat⟩]⟩
  | event => (kernelExec r.machine event).map fun s => ⟨s, r.windows⟩

/-- The rest of the system writes no table, those of the boot loader included. -/
def deviceEnabled (start : KernelMachine) (r : DeviceRun) (event : KernelEvent) : Prop :=
  kernelEnabled r.machine event ∧ ∀ memory cr3 cr4, event = .user (.run memory cr3 cr4) →
    ∀ level phys, BootTable start level phys → ∀ x, frameOf x = phys → memory x = r.machine.memory x

def DeviceReachable (start : KernelMachine) (r : DeviceRun) : Prop :=
  Reachable (fun r => r = ⟨start, []⟩) (deviceEnabled start) deviceExec r

/-! ## The invariant -/

/-- The physical ranges of two windows have no byte in common. -/
def Window.Apart (a b : Window) : Prop :=
  a.physical + a.bytes ≤ b.physical ∨ b.physical + b.bytes ≤ a.physical

/-- A window is in order: whole pages below the cursor, over no memory, and mapped. -/
structure WindowHolds (map : MemoryMap) (s : KernelMachine) (w : Window) : Prop where
  low : mmioBase ≤ w.virt
  high : w.virt + w.bytes ≤ mmioBase + s.context.mmio.used
  virt_align : w.virt % 4096 = 0
  bytes_align : w.bytes % 4096 = 0
  memory : ∀ region ∈ map.regions, region.type ≠ .reserved →
    w.physical + w.bytes ≤ region.base ∨ region.base + region.length ≤ w.physical
  page : ∀ k < w.bytes / 4096, kernelLeaf s (w.virt + 4096 * k) =
    (w.physical + 4096 * k) ||| mmioFlags s.context.system.kernel
  frame : ∀ k < w.bytes / 4096, Frame (kernelMask s.context.system.kernel) (w.physical + 4096 * k)

/-- The windows of a run are in order. -/
structure WindowsHold (map : MemoryMap) (s : KernelMachine) (windows : List Window) : Prop where
  holds : ∀ w ∈ windows, WindowHolds map s w
  behind : windows.Pairwise fun a b => a.virt + a.bytes ≤ b.virt
  apart : windows.Pairwise Window.Apart
  apertures : s.context.mmio.apertures = windows.map fun w => ⟨w.physical, w.physical + w.bytes⟩

/-- What holds in every run. -/
structure DeviceInv (map : MemoryMap) (start : KernelMachine) (r : DeviceRun) : Prop where
  coherent : CoherentInv map r.machine
  inherits : Inherits start r.machine
  windows : WindowsHold map r.machine r.windows

/-- The policy looks at the map that the direct map was made for. -/
theorem Direct.map_eq {map : MemoryMap} {kernel : KernelVmm} (h : Direct map kernel) :
    kernel.directMap.map = map := by
  obtain ⟨context, offset, hinit⟩ := h.made
  exact (hhdmInit_spec hinit).1

/-- What `vmm_map_mmio` has checked of an aperture that it accepts. -/
theorem mmioAccepted_apart {map : MemoryMap} {c : KernelSystem} {physical bytes edx pat : Nat}
    (hmap : c.system.kernel.directMap.map = map)
    (h : mmioAccepted c physical bytes edx pat = true) :
    (∀ region ∈ map.regions, region.type ≠ .reserved →
      physical + bytes ≤ region.base ∨ region.base + region.length ≤ physical) ∧
    ∀ a ∈ c.mmio.apertures, a.last ≤ physical ∨ physical + bytes ≤ a.start := by
  rw [mmioAccepted, decide_eq_true_eq, hmap] at h
  obtain ⟨-, -, hrange, -, -, -, -, hothers⟩ := h
  constructor
  · intro region hmem htype
    rw [mmioRangeAllowed] at hrange
    split at hrange
    · cases hrange
    have hregion := List.all_eq_true.1 hrange region hmem
    rw [decide_eq_true_eq] at hregion
    by_contra hoverlap
    rw [not_or] at hoverlap
    exact hregion.2 ⟨by omega, by omega, htype⟩
  · intro a ha
    have hno := hothers a ha
    omega

section Steps

variable {map : MemoryMap} {s s' : KernelMachine} {windows : List Window}

/-- An address of a window lies in the window of the devices. -/
theorem WindowHolds.within {w : Window} (h : WindowHolds map s w)
    (hused : s.context.mmio.used ≤ mmioSize)
    {o : Nat} (ho : o < w.bytes) : mmioBase ≤ w.virt + o ∧ w.virt + o < mmioBase + mmioSize := by
  have hlow := h.low
  have hhigh := h.high
  omega

/-- Windows stay as they are while the entries of their pages and the static table do. -/
theorem WindowsHold.of_leaves (h : WindowsHold map s windows)
    (hused : s.context.mmio.used ≤ mmioSize) (hmmio : s'.context.mmio = s.context.mmio)
    (hkernel : s'.context.system.kernel = s.context.system.kernel)
    (hleaf : ∀ v, mmioBase ≤ v → v < mmioBase + mmioSize → kernelLeaf s' v = kernelLeaf s v) :
    WindowsHold map s' windows := by
  refine ⟨fun w hw => ?_, h.behind, h.apart, by rw [hmmio]; exact h.apertures⟩
  have hwindow := h.holds w hw
  refine ⟨hwindow.low, by rw [hmmio]; exact hwindow.high, hwindow.virt_align, hwindow.bytes_align,
    hwindow.memory, fun k hk => ?_, fun k hk => ?_⟩
  · have hin := hwindow.within hused (show 4096 * k < w.bytes by omega)
    rw [hleaf _ hin.1 hin.2, hkernel]
    exact hwindow.page k hk
  · rw [hkernel]
    exact hwindow.frame k hk

/-- A page that may be mapped by address is no page of a device. -/
theorem not_samePage_window {v page : Nat} (h1 : mmioBase ≤ v) (h2 : v < mmioBase + mmioSize)
    (hpage : dynamicAddress page = true) : ¬ SamePage v page := by
  intro hsame
  have hdynamic := dynamicAddress_samePage hsame hpage
  rw [dynamicAddress, decide_eq_true_eq] at hdynamic
  omega

/-- A change of a page that may be mapped by address is no change in the window of the devices. -/
theorem LeafChanged.window {page entry : Nat} (h : LeafChanged s s' page entry)
    (hpage : dynamicAddress page = true) :
    ∀ v, mmioBase ≤ v → v < mmioBase + mmioSize → kernelLeaf s' v = kernelLeaf s v :=
  fun _ h1 h2 => h.of_ne (inDynamic_of_mmio h1 h2) (not_samePage_window h1 h2 hpage)

/-- A new window is behind the others, and apart from them. -/
theorem WindowsHold.snoc (h : WindowsHold map s windows) (hinv : KernelInv map s)
    {physical bytes edx pat : Nat}
    (haccepted : mmioAccepted s.context physical bytes edx pat = true)
    {s1 : KernelMachine}
    (hwindow : WindowMapped map (mmioBase + s.context.mmio.used) physical 0 (bytes / 4096) s s1)
    (hs' : s' = ⟨{ s1.context with mmio :=
      { used := s.context.mmio.used + bytes
        apertures := s.context.mmio.apertures ++ [⟨physical, physical + bytes⟩] } }, s1.memory⟩) :
    WindowsHold map s' (windows ++ [⟨mmioBase + s.context.mmio.used, physical, bytes⟩]) := by
  subst hs'
  obtain ⟨hroom, hend, hbytes⟩ := mmioAccepted_bounds hinv.window haccepted
  obtain ⟨hmemory, hapart⟩ := mmioAccepted_apart hinv.direct.map_eq haccepted
  have hkernel : s1.context.system.kernel = s.context.system.kernel := hwindow.step.kernel
  have hbase : mmioBase % 4096 = 0 := rfl
  -- the cursor is a multiple of the page size, because a page was mapped there or nothing
  -- was asked for
  have hpos : 0 < bytes / 4096 := by
    rw [mmioAccepted, decide_eq_true_eq] at haccepted
    have hrange := haccepted.2.2.1
    rw [mmioRangeAllowed] at hrange
    split at hrange
    · cases hrange
    · omega
  have halign := hwindow.align hpos
  refine ⟨fun w hw => ?_, ?_, ?_, ?_⟩
  · rcases List.mem_append.1 hw with hold | hnew
    · have hwhole := h.holds w hold
      have hlow := hwhole.low
      have hhigh := hwhole.high
      refine ⟨hlow, ?_, hwhole.virt_align, hwhole.bytes_align, hwhole.memory, fun k hk => ?_,
        fun k hk => ?_⟩
      · show w.virt + w.bytes ≤ mmioBase + (s.context.mmio.used + bytes)
        omega
      · have hin := hwhole.within hinv.window (show 4096 * k < w.bytes by omega)
        show kernelLeaf s1 (w.virt + 4096 * k) = (w.physical + 4096 * k) |||
          mmioFlags s1.context.system.kernel
        rw [hwindow.others _ (inDynamic_of_mmio hin.1 hin.2), hkernel]
        · exact hwhole.page k hk
        · intro j _ _ hsame
          rw [SamePage] at hsame
          omega
      · show Frame (kernelMask s1.context.system.kernel) (w.physical + 4096 * k)
        rw [hkernel]
        exact hwhole.frame k hk
    · rw [List.mem_singleton] at hnew
      subst hnew
      refine ⟨Nat.le_add_right _ _, ?_, halign, hbytes, hmemory, fun k hk => ?_, fun k hk => ?_⟩
      · show mmioBase + s.context.mmio.used + bytes ≤ mmioBase + (s.context.mmio.used + bytes)
        omega
      · show kernelLeaf s1 _ = _ ||| mmioFlags s1.context.system.kernel
        rw [hkernel]
        exact hwindow.mapped k (Nat.zero_le k) hk
      · show Frame (kernelMask s1.context.system.kernel) _
        rw [hkernel]
        exact hwindow.packed k (Nat.zero_le k) hk
  · rw [List.pairwise_append]
    refine ⟨h.behind, List.pairwise_singleton _ _, fun a ha b hb => ?_⟩
    rw [List.mem_singleton.1 hb]
    exact (h.holds a ha).high
  · rw [List.pairwise_append]
    refine ⟨h.apart, List.pairwise_singleton _ _, fun a ha b hb => ?_⟩
    rw [List.mem_singleton.1 hb]
    have hmem : (⟨a.physical, a.physical + a.bytes⟩ : Aperture) ∈ s.context.mmio.apertures := by
      rw [h.apertures]
      exact List.mem_map.2 ⟨a, ha, rfl⟩
    exact hapart _ hmem
  · show s.context.mmio.apertures ++ _ = _
    rw [h.apertures, List.map_append]
    rfl

end Steps

section Runs

variable {map : MemoryMap} {start : KernelMachine} (hstart : MemoryInitialized map start)
  {r r' : DeviceRun}

include hstart

theorem deviceInv_start : DeviceInv map start ⟨start, []⟩ := by
  refine ⟨⟨hstart.inv, fun vm hlive => ?_⟩, inherits_start hstart, nofun, .nil, .nil, ?_⟩
  · have hlive' : (start.context.system.vms vm).initialized = true := hlive
    rw [hstart.unused vm] at hlive'
    cases hlive'
  · show start.context.mmio.apertures = []
    rw [hstart.mmio]

variable (h : DeviceInv map start r)

include h

/-- An operation on the kernel's space that changes no entry in the window of the devices. -/
theorem DeviceInv.of_step {s' : KernelMachine} (hstep : KernelStep map r.machine s')
    (hleaf : ∀ v, mmioBase ≤ v → v < mmioBase + mmioSize →
    kernelLeaf s' v = kernelLeaf r.machine v) :
    DeviceInv map start ⟨s', r.windows⟩ :=
  ⟨h.coherent.of_step hstep, h.inherits.of_work hstart hstep.toKernelWork,
    h.windows.of_leaves h.coherent.inv.window hstep.mmio hstep.kernel hleaf⟩

/-- One event of a run. -/
theorem deviceInv_step {event : KernelEvent} (hen : deviceEnabled start r event)
    (hexec : deviceExec r event = some r') : DeviceInv map start r' := by
  have hinv := h.coherent.inv
  cases event with
  | mapPage virt phys flags =>
    obtain ⟨t, ok, hcall, hstep, hok, hnot⟩ :=
      vmmMapPage_spec hinv virt.toNat phys.toNat flags.toNat_lt
    simp only [deviceExec, kernelExec, hcall, Option.map_some, Option.some.injEq] at hexec
    subst hexec
    refine h.of_step hstart hstep ?_
    cases ok with
    | false => exact fun v h1 h2 => hnot rfl v (inDynamic_of_mmio h1 h2)
    | true => exact (hok rfl).2.2.window (hok rfl).1.address
  | unmapPage virt =>
    obtain ⟨t, ok, hcall, hstep, -, hok, hnot⟩ := vmmUnmapPage_spec hinv virt.toNat
    simp only [deviceExec, kernelExec, hcall, Option.map_some, Option.some.injEq] at hexec
    subst hexec
    refine h.of_step hstart hstep ?_
    cases ok with
    | false =>
      rw [(hnot rfl).1]
      exact fun _ _ _ => rfl
    | true => exact (hok rfl).2.window (hok rfl).1
  | protectPage virt flags =>
    obtain ⟨t, ok, hcall, hstep, hok, hnot⟩ := vmmProtectPage_spec hinv virt.toNat flags.toNat_lt
    simp only [deviceExec, kernelExec, hcall, Option.map_some, Option.some.injEq] at hexec
    subst hexec
    refine h.of_step hstart hstep ?_
    cases ok with
    | false =>
      rw [hnot rfl]
      exact fun _ _ _ => rfl
    | true =>
      obtain ⟨haddress, -, -, phys, old, -, -, -, hleaf⟩ := hok rfl
      exact hleaf.window haddress
  | mapMmio physical bytes edx pat =>
    obtain ⟨t, out, hcall, houtcome⟩ := vmmMapMmio_spec hinv physical.toNat bytes.toNat edx pat
    simp only [deviceExec, hcall, Option.map_some, Option.some.injEq] at hexec
    subst hexec
    cases houtcome with
    | mapped haccepted hwindow =>
      refine ⟨(h.coherent.of_step hwindow.step).of_mmio
        (mmioAccepted_bounds hinv.window haccepted).1, ?_,
        h.windows.snoc hinv haccepted hwindow rfl⟩
      -- the static table is no part of what is inherited
      have hinherits := h.inherits.of_work hstart hwindow.step.toKernelWork
      exact ⟨hinherits.kernel, hinherits.reserved, hinherits.tables, hinherits.inherited⟩
    | failed hstep hleaves =>
      exact h.of_step hstart hstep fun v h1 h2 => hleaves v (inDynamic_of_mmio h1 h2)
  | user event =>
    simp only [deviceExec, kernelExec, Option.map_map, Option.map_eq_some_iff] at hexec
    obtain ⟨m, hm, rfl⟩ := hexec
    have hframe := userFrame_of_exec hstart h.inherits hinv hen.1 hen.2 hm
    obtain ⟨-, -, hleaf⟩ := hinv.user_tree hframe.kernel hframe.bytes
    exact ⟨coherentInv_user h.coherent hen.1 hm, h.inherits.of_user hinv hframe,
      h.windows.of_leaves hinv.window rfl hframe.kernel fun v h1 h2 =>
        hleaf v (inDynamic_of_mmio h1 h2)⟩

omit h in
theorem deviceInv_of_run (hrun : DeviceReachable start r) : DeviceInv map start r := by
  refine hrun.invariant (fun t ht => ?_) fun t event t' hinv hen hexec =>
    deviceInv_step hstart hinv hen hexec
  rw [ht]
  exact deviceInv_start hstart

end Runs

/-! ## Windows -/

/-- A translation for a device: of one byte, writable, for the supervisor only, and uncached. -/
structure DeviceMapping (mapping : VmmMapping) (physical : Nat) : Prop where
  mapped : mapping.mapped = true
  physical : mapping.physical = physical
  writable : hasFlag mapping.flags vmmWritable = true
  supervisor : hasFlag mapping.flags vmmUser = false
  cacheDisable : hasFlag mapping.flags vmmCacheDisable = true
  writeThrough : hasFlag mapping.flags vmmWriteThrough = true

/-- Every byte of a window is translated. -/
theorem WindowHolds.query {map : MemoryMap} {s : KernelMachine} {w : Window}
    (h : WindowHolds map s w) (hinv : KernelInv map s) {o : Nat} (ho : o < w.bytes) :
    ∃ mapping, vmmQueryPage s (w.virt + o) = some mapping ∧
      DeviceMapping mapping (w.physical + o) := by
  have hvirt := h.virt_align
  have hbytes := h.bytes_align
  have hin := h.within hinv.window ho
  have hpage : o / 4096 < w.bytes / 4096 := by omega
  have hsame : SamePage (w.virt + o) (w.virt + 4096 * (o / 4096)) := by
    rw [SamePage]
    omega
  have hmask := memoryPhysicalMask_within hinv.direct.mask
  have hflags := mmioFlags_ok s.context.system.kernel
  have hframe := h.frame _ hpage
  refine ⟨_, hinv.query (inDynamic_of_mmio hin.1 hin.2), ?_⟩
  rw [kernelLeaf_samePage hsame s, h.page _ hpage, mappingOf,
    if_neg (packed_ne_zero hmask hframe hflags),
    packed_mask hmask hframe hflags, packed_flags hmask hframe hflags]
  refine ⟨rfl, ?_, ?_, ?_, ?_, ?_⟩
  · show w.physical + 4096 * (o / 4096) + (w.virt + o) % 4096 = w.physical + o
    omega
  all_goals
    simp only [mmioFlags]
    cases s.context.system.kernel.information.nxEnabled <;> decide

/-- After a call that failed all addresses are translated as before. -/
theorem DeviceInv.query_same {map : MemoryMap} {start : KernelMachine}
    (hstart : MemoryInitialized map start)
    {r : DeviceRun} (h : DeviceInv map start r) {s' : KernelMachine}
    (hstep : KernelStep map r.machine s')
    (hleaves : LeavesSame r.machine s') {virt : Nat} (hword : virt < 2 ^ 64) :
    vmmQueryPage s' virt = vmmQueryPage r.machine virt := by
  by_cases hin : InDynamic virt
  · rw [hstep.inv.query hin, h.coherent.inv.query hin, hleaves virt hin, hstep.kernel]
  · rw [(h.inherits.of_work hstart hstep.toKernelWork).query_outside hstart hword hin,
      h.inherits.query_outside hstart hword hin]

/-- In every run, the windows that `vmm_map_mmio` has returned are disjoint and inside the window of
the devices, their apertures are disjoint and over no memory, and each byte is translated to its
place in the aperture, writable, for the supervisor only and uncached. Every call returns, and one
that fails changes no translation and takes nothing. -/
theorem mmio_windows_disjoint {map : MemoryMap} {start : KernelMachine}
    (hstart : MemoryInitialized map start) {r : DeviceRun} (hrun : DeviceReachable start r) :
    r.windows.Pairwise (fun a b => a.virt + a.bytes ≤ b.virt) ∧
    r.windows.Pairwise (fun a b => a.physical + a.bytes ≤ b.physical ∨
    b.physical + b.bytes ≤ a.physical) ∧
    (∀ w ∈ r.windows, mmioBase ≤ w.virt ∧ w.virt + w.bytes ≤ mmioBase + mmioSize ∧
      (∀ region ∈ map.regions, region.type ≠ .reserved →
        w.physical + w.bytes ≤ region.base ∨ region.base + region.length ≤ w.physical) ∧
      ∀ o < w.bytes, ∃ mapping, vmmQueryPage r.machine (w.virt + o) = some mapping ∧
        DeviceMapping mapping (w.physical + o)) ∧
    ∀ physical bytes edx pat, ∃ s' out, vmmMapMmio r.machine physical bytes edx pat =
      some (s', out) ∧
      (out = none → s'.context.mmio = r.machine.context.mmio ∧
        ∀ virt < 2 ^ 64, vmmQueryPage s' virt = vmmQueryPage r.machine virt) := by
  have h := deviceInv_of_run hstart hrun
  have hinv := h.coherent.inv
  refine ⟨h.windows.behind, h.windows.apart, fun w hw => ?_, fun physical bytes edx pat => ?_⟩
  · have hwindow := h.windows.holds w hw
    have hused := hinv.window
    have hhigh := hwindow.high
    exact ⟨hwindow.low, by omega, hwindow.memory, fun o ho => hwindow.query hinv ho⟩
  · obtain ⟨s', out, hcall, houtcome⟩ := vmmMapMmio_spec hinv physical bytes edx pat
    refine ⟨s', out, hcall, fun hnone => ?_⟩
    cases houtcome with
    | mapped _ _ => cases hnone
    | failed hstep hleaves =>
      exact ⟨hstep.mmio, fun virt hword => h.query_same hstart hstep hleaves hword⟩

/-- Two windows, the second call for an aperture that overlaps the first one being refused
in between. -/
theorem mmio_windows_disjoint_two : ∃ r, DeviceReachable bootMachine r ∧
    r.windows = [⟨0xffffc00080000000, 0x200000, 0x2000⟩, ⟨0xffffc00080002000, 0x300000, 0x1000⟩] ∧
    ∃ mapping, vmmQueryPage r.machine 0xffffc00080002004 = some mapping ∧
      DeviceMapping mapping 0x300004 := by
  let events : List KernelEvent :=
    [.mapMmio 0x200000 0x2000 0x10000 0, .mapMmio 0x201000 0x1000 0x10000 0,
      .mapMmio 0x300000 0x1000 0x10000 0]
  obtain ⟨r, hr⟩ : ∃ r, r = events.foldl (fun r event => (deviceExec r event).getD r)
    ⟨bootMachine, []⟩ := ⟨_, rfl⟩
  have hwindows : r.windows =
      [⟨0xffffc00080000000, 0x200000, 0x2000⟩, ⟨0xffffc00080002000, 0x300000, 0x1000⟩] := by
    rw [hr]
    decide +kernel
  have hstart : DeviceReachable bootMachine ⟨bootMachine, []⟩ := .start rfl
  have hreach : DeviceReachable bootMachine r := by
    rw [hr]
    exact hstart.foldl_getD (by simp [events, deviceEnabled, kernelEnabled])
  obtain ⟨-, -, hholds, -⟩ := mmio_windows_disjoint bootMachine_initialized hreach
  have hsecond := hholds ⟨0xffffc00080002000, 0x300000, 0x1000⟩ (by rw [hwindows]; decide)
  exact ⟨r, hreach, hwindows, hsecond.2.2.2 4 (by decide)⟩

end Utamo.KernelSpace
