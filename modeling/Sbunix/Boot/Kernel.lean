/-
The boot as a whole (`boot` and `start` of sys/main.c): the segments, the descriptor table, the
controllers, the timer and the keyboard, what is printed, the banners and the devices. When it is done
interrupts may come, and what it has put on the screen stays there.
-/
import Sbunix.Boot.Gdt
import Sbunix.Boot.Messages
import Sbunix.Device.PciScan
import Sbunix.Interrupt.Drain

namespace Sbunix.Boot

open Console Fallible Strides Terminal Transition
open Device (Pci PciFault Recorded initPciDevInfo unscanned scanOrder responding maxPciDevices)
open Interrupt (Idt Routes Routines System SystemStep Booted PitChannel initPic initPit initPs2Controller
  picIrqTimer picIrqKeyboard)
open InterruptController (Pair)

/-! ## The boot -/

/-- The addresses the linker gives to what the boot needs the address of. -/
structure Layout where
  gdt : BitVec 64
  tss : BitVec 64
  sIdtd : BitVec 64
  tarfs : BitVec 64 × BitVec 64
  routines : Routines

structure Kernel where
  segments : Segments
  pics : Pair
  idt : Idt
  pit : PitChannel
  row : StatusRow
  pci : Pci
  enabled : Bool

/-- What may stop the boot. -/
inductive BootFault where
  | segment
  | descriptor
  | controller
  | format (fault : KprintfFault)
  | metadata (fault : Fault)
  | device (fault : PciFault)

def orFault {α : Type} (fault : BootFault) : Option α → Except BootFault α
  | some a => .ok a
  | none => .error fault

/-- `for(temp2 = (char*)0xb8001; temp2 < (char*)0xb8000+160*25; temp2 += 2) *temp2 = 7;` -/
def whiten (video : Video) : Video :=
  (List.range (160 * 25 / 2)).foldl (fun video i => video.store (2 * i + 1) 7) video

def Kernel.print (calls : List Call) (k : Kernel) : Except BootFault Kernel := do
  let screen ← (kprintfs k.row.screen calls).mapError .format
  return { k with row := { k.row with screen := screen } }

section Functions

variable (layout : Layout) (space : BitVec 32 → BitVec 32)

/-- `init_Idt`, which prints before it fills the table. -/
def Kernel.initIdt (k : Kernel) : Except BootFault Kernel := do
  let idt ← orFault .descriptor (Interrupt.initIdt layout.sIdtd layout.routines.defaultRoutine k.idt)
  let k ← k.print [idtrCall idt.sIdtr]
  return { k with idt := idt }

/-- `start` up to `enable_Interrupts`. -/
def Kernel.start (modulep : List Word) (physfree : BitVec 64) (fuel fuel' : Nat) (k : Kernel) :
    Except BootFault Kernel := do
  let (_, visits) ← (Boot.start modulep fuel fuel').mapError .metadata
  let k ← k.print ((visits.filterMap Visit.printed).map availableCall)
  let k ← k.print [physfreeCall physfree, tarfsCall layout.tarfs]
  let k := { k with row := setUpWelcomeScreen k.row }
  let pci ← (initPciDevInfo space k.pci).mapError .device
  return { k with pci := pci }

/-- `boot` up to there. The words are those from `loader_stack[3]` on, and `physfree` is
`loader_stack[4]`, of 32 bits. -/
def boot (modulep : List Word) (physfree : BitVec 32) (fuel fuel' : Nat) (k : Kernel) :
    Except BootFault Kernel := do
  let video := whiten k.row.screen.video
  let k := { k with row := { k.row with screen := { k.row.screen with video := video } }, enabled := false }
  let segments ← orFault .segment (initGdt layout.gdt layout.tss k.segments)
  let k ← { k with segments := segments }.initIdt layout
  let pics ← orFault .controller (initPic 0x20 0x28 k.pics)
  let (idt, pit) ← orFault .descriptor (initPit layout.routines.pit k.idt k.pit)
  let idt ← orFault .descriptor (initPs2Controller layout.routines.keyboard idt)
  let k := { k with pics := pics, idt := idt, pit := pit }
  k.start layout space modulep (physfree.setWidth 64) fuel fuel'

end Functions

/-! ## What the boot relies on and what it leaves -/

/-- The kernel as it is linked, on a machine whose controllers have nothing in service. -/
structure Linked (video : Video) (k : Kernel) : Prop where
  segments : k.segments.Flat
  row : k.row = booted (started video)
  pci : ∃ latch, k.pci = unscanned latch
  master : k.pics.master.inService = 0
  slave : k.pics.slave.inService = 0

/-- The rows show these lines, over what the loader had left there in another colour, and below them
are the banners. -/
structure ShowsBoot (video : Video) (lines : List (List (BitVec 8))) (screen : Screen) : Prop where
  cell : ∀ r < rows, ∀ c < columns, cellAt screen.video r c =
    tape rows blankCell (cellAt (whiten video)) (lines.map greyCells) (top rows lines.length + r) c
  keypress : ∀ i (h : i < keypressString.length),
    cellAt screen.video rows i = (keypressString[i], lightGrey)
  time : ∀ i (h : i < timeString.length), cellAt screen.video rows (52 + i) = (timeString[i], lightGrey)

/-- The kernel with the codes that the keyboard controller has not been asked for. -/
def Kernel.system (k : Kernel) (codes : List (BitVec 8)) : System where
  pics := k.pics
  idt := k.idt
  enabled := k.enabled
  handler := .idle
  codes := codes
  row := k.row

structure Up (layout : Layout) (space : BitVec 32 → BitVec 32) (video : Video)
    (lines : List (List (BitVec 8))) (k : Kernel) : Prop where
  base : (SysSegmentDescriptor.read k.segments.sd).base = layout.tss
  selectors : k.segments.cs = 8 ∧ k.segments.ss = 16 ∧ k.segments.tr = 0x28
  routes : Routes k.idt (Function.update (Function.update (fun _ => layout.routines.defaultRoutine) 32
    layout.routines.pit) 33 layout.routines.keyboard)
  pit : k.pit = Interrupt.rateOf298
  screen : ShowsBoot video lines k.row.screen
  devices : Recorded space scanOrder k.pci
  booted : ∀ codes, Booted layout.routines (k.system codes)

/-! ## The screen -/

section Screen

variable {video : Video} {lines : List (List (BitVec 8))} {s : Screen} {calls : List Call}

theorem whiten_apply (video : Video) (k : Nat) :
    whiten video k = if k % 2 = 1 ∧ k < 4000 then 7 else video k := by
  have hloop : ∀ n, (List.range n).foldl (fun video i => Video.store video (2 * i + 1) 7) video k =
      if k % 2 = 1 ∧ k < 2 * n then 7 else video k := by
    intro n
    induction n with
    | zero => simp
    | succ n ih =>
      rw [List.range_succ, List.foldl_append, List.foldl_cons, List.foldl_nil, Video.store_apply, ih]
      by_cases hk : k = 2 * n + 1
      · rw [if_pos hk, if_pos (by omega)]
      · rw [if_neg hk]
        exact if_congr (by omega) rfl rfl
  exact hloop _

theorem kprintfs_of_run {t : Screen} (h : Run (Restrict KprintfStep CallFits) s calls t) :
    kprintfs s calls = .ok t := by
  refine h.invariant_steps (fun calls t => kprintfs s calls = .ok t) rfl ?_
  intro calls t call u ht hstep
  unfold kprintfs at ht ⊢
  rw [List.foldlM_append, ht, ok_bind, List.foldlM_cons]
  exact congrArg (· >>= fun s => [].foldlM _ s) hstep.1

theorem cellAt_of_eq {video video' : Video} {r c : Nat}
    (h : ∀ k, 160 * r + 2 * c ≤ k → k ≤ 160 * r + 2 * c + 1 → video k = video' k) :
    cellAt video r c = cellAt video' r c := by
  unfold cellAt maxScreenWidth
  rw [h _ (by omega) (by omega), h _ (by omega) (by omega)]

/-- The banners go below the lines. -/
theorem welcome_shows {row : StatusRow} (h : ShowsLines (whiten video) lines row.screen) :
    ShowsBoot video lines (setUpWelcomeScreen row).screen := by
  constructor
  case cell =>
    intro r hr c hc
    rw [← h.cell r hr c hc]
    refine cellAt_of_eq fun k _ hk => setUpWelcomeScreen_changes row k ?_
    unfold keypressBannerCells timeBannerCells keypressBanner timeAddress maxScreenWidth
    unfold rows at hr
    unfold columns at hc
    rw [Set.mem_union, Set.mem_Ico, Set.mem_Ico]
    omega
  case keypress =>
    intro i hi
    obtain ⟨hch, hattr⟩ := putCells_inside (a := keypressBanner)
      (s := (putCells timeString (timeAddress - 16) row.screen).2) keypressString i hi
    exact Prod.ext_iff.2 ⟨hch, hattr⟩
  case time =>
    intro i hi
    obtain ⟨hch, hattr⟩ := putCells_inside (a := timeAddress - 16) (s := row.screen) timeString i hi
    have hkept : ∀ k, timeAddress - 16 ≤ k → (setUpWelcomeScreen row).screen.video k =
        (putCells timeString (timeAddress - 16) row.screen).2.video k := by
      intro k hk
      refine putCells_outside keypressString fun hmem => ?_
      have hlt : k < keypressBanner + 2 * keypressString.length := hmem.2
      exact absurd (Nat.lt_of_le_of_lt hk hlt) (by decide)
    have haddress : rows * maxScreenWidth + 2 * (52 + i) = timeAddress - 16 + 2 * i := by
      unfold rows timeAddress maxScreenWidth
      omega
    unfold cellAt
    rw [haddress, hkept _ (by omega), hkept _ (by omega)]
    exact Prod.ext_iff.2 ⟨hch, hattr⟩

/-- The handlers' cells are others. -/
theorem ShowsBoot.handled {row : StatusRow} (h : ShowsBoot video lines row.screen)
    (handled : List Interruption) :
    ShowsBoot video lines (Noninterference.run interrupt row handled).screen := by
  have hkept : ∀ k, k < timeAddress → ¬ (3862 ≤ k ∧ k < 3866) →
      (Noninterference.run interrupt row handled).screen.video k = row.screen.video k := by
    intro k hk hkeys
    refine Noninterference.run_unchanged (fun row : StatusRow => row.screen.video k) ?_ handled row
    intro row e
    cases e with
    | timer =>
      refine timer_changes row k fun hmem => ?_
      exact Nat.not_lt.2 hmem.1 hk
    | keyboard key =>
      refine keyboard_changes key row k fun hmem => hkeys ?_
      unfold ctrlCells keyCells ctrlKeypressAddress keypressAddress maxScreenWidth at hmem
      rw [Set.mem_union, Set.mem_Ico, Set.mem_Ico] at hmem
      omega
  have hcells : ∀ r c, 160 * r + 2 * c + 1 < 3862 ∨ 3866 ≤ 160 * r + 2 * c ∧ 160 * r + 2 * c + 1 < 3960 →
      cellAt (Noninterference.run interrupt row handled).screen.video r c = cellAt row.screen.video r c := by
    intro r c hrc
    refine cellAt_of_eq fun k _ _ => hkept k ?_ (by omega)
    unfold timeAddress maxScreenWidth
    omega
  constructor
  case cell =>
    intro r hr c hc
    rw [hcells r c (by unfold rows at hr; unfold columns at hc; omega), h.cell r hr c hc]
  case keypress =>
    intro i hi
    have hi' : i < 11 := hi
    rw [hcells _ _ (by unfold rows; omega), h.keypress i hi]
  case time =>
    intro i hi
    have hi' : i < 6 := hi
    rw [hcells _ _ (by unfold rows; omega), h.time i hi]

end Screen

/-! ## The steps of the boot -/

section Steps

variable {layout : Layout} {space : BitVec 32 → BitVec 32} {video : Video} {k k' : Kernel} {s s' : Screen}
  {calls calls' : List Call} {handler : Nat → BitVec 64}

theorem print_eq (h : kprintfs k.row.screen calls = .ok s) :
    k.print calls = .ok { k with row := { k.row with screen := s } } := by
  unfold Kernel.print
  rw [h]
  rfl

theorem kprintfs_append (calls calls' : List Call) (h : kprintfs s (calls ++ calls') = .ok s') :
    ∃ between, kprintfs s calls = .ok between ∧ kprintfs between calls' = .ok s' := by
  unfold kprintfs at h ⊢
  rw [List.foldlM_append] at h
  exact bind_eq_ok h

/-- The table is filled, whatever stood in it. -/
theorem initIdt_prints (layout : Layout) (k : Kernel)
    (h : kprintfs k.row.screen [idtrCall ⟨4095, layout.sIdtd⟩] = .ok s) :
    ∃ idt, k.initIdt layout = .ok { k with idt := idt, row := { k.row with screen := s } } ∧
      Routes idt fun _ => layout.routines.defaultRoutine := by
  obtain ⟨idt, hidt, hroutes⟩ :=
    Interrupt.initIdt_routes layout.sIdtd layout.routines.default_ne k.idt
  rw [← Interrupt.initIdt_sIdtr hidt] at h
  refine ⟨idt, ?_, hroutes⟩
  have hprint := print_eq (k := k) h
  unfold Kernel.initIdt
  rw [hidt]
  dsimp only [orFault]
  rw [ok_bind, hprint, ok_bind]
  rfl

theorem start_prints {modulep : List Word} {physfree : BitVec 64} {fuel fuel' first : Nat}
    {visits : List Visit} {pci : Pci} (hstart : Boot.start modulep fuel fuel' = .ok (first, visits))
    (h : kprintfs k.row.screen ((visits.filterMap Visit.printed).map availableCall ++
      [physfreeCall physfree, tarfsCall layout.tarfs]) = .ok s)
    (hpci : initPciDevInfo space k.pci = .ok pci) :
    k.start layout space modulep physfree fuel fuel' =
      .ok { k with row := setUpWelcomeScreen { k.row with screen := s }, pci := pci } := by
  obtain ⟨between, h1, h2⟩ := kprintfs_append _ _ h
  have hfirst := print_eq (k := k) h1
  have hsecond := print_eq (k := { k with row := { k.row with screen := between } }) h2
  unfold Kernel.start
  rw [hstart]
  dsimp only [Except.mapError]
  rw [ok_bind]
  dsimp only
  rw [hfirst, ok_bind, hsecond, ok_bind]
  dsimp only
  rw [hpci]
  rfl

/-- The controllers have no request, and both handlers are in the table. -/
theorem booted_system (r : Routines) (hpics : initPic 0x20 0x28 k.pics = some k'.pics)
    (hmaster : k.pics.master.inService = 0) (hslave : k.pics.slave.inService = 0)
    (hroutes : Routes k'.idt (Function.update (Function.update handler 32 r.pit) 33 r.keyboard))
    (henabled : k'.enabled = false) (codes : List (BitVec 8)) : Booted r (k'.system codes) := by
  obtain ⟨-, hprogrammed⟩ := Interrupt.inService_init hpics hmaster hslave
  obtain ⟨hpit, hkeyboard⟩ := Interrupt.handlers_get hroutes
  rw [Interrupt.initPic_eq] at hpics
  have hk' := Option.some.inj hpics
  constructor
  case programmed => exact hprogrammed
  case pit => exact hpit
  case keyboard => exact hkeyboard
  case masterRequested => exact (congrArg (fun p => p.master.requested) hk').symm
  case slaveRequested => exact (congrArg (fun p => p.slave.requested) hk').symm
  case masterInService => exact (congrArg (fun p => p.master.inService) hk').symm.trans hmaster
  case slaveInService => exact (congrArg (fun p => p.slave.inService) hk').symm.trans hslave
  case handler => rfl
  case enabled => exact henabled

/-- The kernel as `start` finds it. -/
def ready (layout : Layout) (idt : Idt) (s : Screen) (k : Kernel) : Kernel where
  segments := loaded layout.gdt layout.tss k.segments
  pics := ⟨Interrupt.programmed 0x20 0x04 k.pics.master, Interrupt.programmed 0x28 0x02 k.pics.slave⟩
  idt := idt
  pit := Interrupt.rateOf298
  row := { k.row with screen := s }
  pci := k.pci
  enabled := false

theorem boot_ready (layout : Layout) (space : BitVec 32 → BitVec 32) (hk : Linked video k)
    (h : kprintfs (started (whiten video)) [idtrCall ⟨4095, layout.sIdtd⟩] = .ok s) :
    ∃ idt, Routes idt (Function.update (Function.update (fun _ => layout.routines.defaultRoutine) 32
        layout.routines.pit) 33 layout.routines.keyboard) ∧
      ∀ modulep physfree fuel fuel', boot layout space modulep physfree fuel fuel' k =
        (ready layout idt s k).start layout space modulep (physfree.setWidth 64) fuel fuel' := by
  have hscreen : { k.row.screen with video := whiten k.row.screen.video } = started (whiten video) := by
    rw [hk.row]
    rfl
  obtain ⟨idt1, hidt, hroutes1⟩ := initIdt_prints layout { k with
    segments := loaded layout.gdt layout.tss k.segments
    row := { k.row with screen := started (whiten video) }
    enabled := false } h
  obtain ⟨idt2, idt3, hpit, hkeyboard, hroutes⟩ :=
    Interrupt.handlers_set hroutes1 layout.routines.pit_ne layout.routines.keyboard_ne k.pit
  refine ⟨idt3, hroutes, fun modulep physfree fuel fuel' => ?_⟩
  unfold boot
  dsimp only
  rw [hscreen, initGdt_eq hk.segments]
  dsimp only [orFault]
  rw [ok_bind, hidt, ok_bind]
  dsimp only
  rw [Interrupt.initPic_eq]
  dsimp only
  rw [ok_bind, hpit]
  dsimp only
  rw [ok_bind]
  dsimp only
  rw [hkeyboard]
  dsimp only
  rw [ok_bind]
  rfl

end Steps

/-- Whatever the machine was doing and whatever the loader has left on the screen: if `start` finds the
memory map and no more than eight devices answer, the boot ends, with the lines and the banners on the
screen, the devices recorded, the segments loaded, the timer counting and both handlers in place. -/
theorem kernel_boots (layout : Layout) {space : BitVec 32 → BitVec 32} {video : Video} {k : Kernel}
    (hk : Linked video k) {pre : List Record} {target : Record} (h : FirstSmap pre target)
    {post : List Record} (hwords : CountsWords (metadata (target :: post)) (metadata pre))
    (hdevices : (responding space).length ≤ maxPciDevices) (physfree : BitVec 32) :
    ∃ fuel fuel' k', boot layout space (metadata (pre ++ target :: post)) physfree fuel fuel' k = .ok k' ∧
      Up layout space video
        (bootLines ⟨4095, layout.sIdtd⟩ target.payload (physfree.setWidth 64) layout.tarfs) k' := by
  obtain ⟨fuel, hwalk⟩ := (walk_iff_countsWords h post).2 hwords
  obtain ⟨fuel, fuel', hstart⟩ := start_of_walk h post hwalk
  obtain ⟨latch, hpci⟩ := hk.pci
  obtain ⟨pci, hscan, hrecorded⟩ := Device.scan_recorded space latch hdevices
  rw [← Device.initPciDevInfo_eq, ← hpci] at hscan
  have hprints : List.Forall₂ PrintsLine
      (bootCalls ⟨4095, layout.sIdtd⟩ (visitsOf target.payload ((metadata pre).length + 2))
        (physfree.setWidth 64) layout.tarfs)
      (bootLines ⟨4095, layout.sIdtd⟩ target.payload (physfree.setWidth 64) layout.tarfs) :=
    bootCalls_print _
  obtain ⟨s, hrun, hlines⟩ := lines_shown (whiten video) hprints length_bootLines
  obtain ⟨between, hidtr, hrest⟩ :=
    kprintfs_append [idtrCall ⟨4095, layout.sIdtd⟩] _ (kprintfs_of_run hrun)
  obtain ⟨idt, hroutes, hboot⟩ := boot_ready layout space hk hidtr
  have hend := start_prints (k := ready layout idt between k) hstart hrest hscan
  rw [← hboot] at hend
  refine ⟨fuel, fuel', _, hend, ?_⟩
  constructor
  case base =>
    have hread : (SysSegmentDescriptor.read (loaded layout.gdt layout.tss k.segments).sd).base = layout.tss := by
      rw [loaded_sd, read_busy, read_describe]
    exact hread
  case selectors => exact ⟨rfl, rfl, rfl⟩
  case routes => exact hroutes
  case pit => rfl
  case screen => exact welcome_shows hlines
  case devices => exact hrecorded
  case booted => exact booted_system (k := k) layout.routines rfl hk.master hk.slave hroutes rfl

/-- The boot ends as `kernel_boots` says, and however ticks and keys come from then on, the lines and the
banners stay, and the keys that are handled are those that were typed, in their order. -/
theorem kernel_runs (layout : Layout) {space : BitVec 32 → BitVec 32} {video : Video} {k : Kernel}
    (hk : Linked video k) {pre : List Record} {target : Record} (h : FirstSmap pre target)
    {post : List Record} (hwords : CountsWords (metadata (target :: post)) (metadata pre))
    (hdevices : (responding space).length ≤ maxPciDevices) (physfree : BitVec 32) :
    ∃ fuel fuel' k', boot layout space (metadata (pre ++ target :: post)) physfree fuel fuel' k = .ok k' ∧
      Up layout space video
        (bootLines ⟨4095, layout.sIdtd⟩ target.payload (physfree.setWidth 64) layout.tarfs) k' ∧
      ∀ codes events s, Run (SystemStep layout.routines) (k'.system codes) events s →
        ShowsBoot video
          (bootLines ⟨4095, layout.sIdtd⟩ target.payload (physfree.setWidth 64) layout.tarfs) s.row.screen ∧
        ∃ handled, s.row = Noninterference.run interrupt k'.row handled ∧
          handled.filterMap Interruption.scanCode <+: codes ++ events.filterMap Interrupt.Event.code := by
  obtain ⟨fuel, fuel', k', hboot, hup⟩ := kernel_boots layout hk h hwords hdevices physfree
  refine ⟨fuel, fuel', k', hboot, hup, ?_⟩
  intro codes events s hrun
  obtain ⟨-, fetched, ⟨handled, hfetched, hrow⟩, hcodes, -⟩ := Interrupt.system_run (hup.booted codes) hrun
  have hshows := hup.screen.handled handled
  rw [hfetched, List.filterMap_append, List.append_assoc] at hcodes
  refine ⟨?_, handled, hrow, _, hcodes⟩
  rw [hrow]
  exact hshows

/-- Any addresses would do. -/
def someLayout : Layout :=
  ⟨0x209000, 0x20a100, 0x20b000, (0x206000, 0x208000), Interrupt.someRoutines⟩

def someKernel : Kernel where
  segments := loaderSegments
  pics := ⟨Interrupt.quietChip, Interrupt.quietChip⟩
  idt := Interrupt.noIdt
  pit := Interrupt.rateOf298
  row := booted (started fun _ => 0)
  pci := unscanned 0
  enabled := true

theorem kernel_runs_one_entry : ∃ fuel fuel' k',
    boot someLayout Device.oneDevice (metadata ([⟨5, [], by decide⟩] ++ [oneEntry])) 0x300000 fuel fuel'
      someKernel = .ok k' ∧
    Up someLayout Device.oneDevice (fun _ => 0)
      (bootLines ⟨4095, 0x20b000⟩ oneEntry.payload 0x300000 (0x206000, 0x208000)) k' := by
  have h : FirstSmap [⟨5, [], by decide⟩] oneEntry := ⟨rfl, by decide, by simp [smapType]⟩
  have hk : Linked (fun _ => 0) someKernel :=
    ⟨⟨by decide, by decide, by decide⟩, rfl, ⟨0, rfl⟩, rfl, rfl⟩
  obtain ⟨fuel, fuel', k', hboot, hup, -⟩ := kernel_runs someLayout hk h
    (countsWords_of_empty (by simp [smapType])) (by rw [Device.responding_oneDevice]; decide) 0x300000
  exact ⟨fuel, fuel', k', hboot, hup⟩

end Sbunix.Boot
