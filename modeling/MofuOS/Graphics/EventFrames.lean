import MofuOS.Graphics.WindowSlots
import MofuOS.Memory.HeapBlocks
import MofuOS.Memory.UserMemory

/-! The frames of event pages. One is taken for each event page that a new window is to have, and given back when the
page cannot be mapped or when its window is destroyed. Unmapping gives back the frames of owned regions, and event
pages are mapped as borrowed. -/
namespace MofuOS.Graphics.Windows
open Lib Memory Process ProcessMemoryLayout

section Ranges
variable {c : Compositor} {id : Nat} {layout : ProcessMemoryLayout Frame}

/-- The ranges that destroy_window unmaps. -/
def unmappedRanges (c : Compositor) (n id : Nat) (hasEventBuffer : Bool) : List (Nat × Nat) :=
  [(c.windowBufferUserBase id,n * pageSize),(c.windowBufferUserBase id + c.maxWindowBufferBytes,n * pageSize)] ++
    if hasEventBuffer then [(eventBufferUserVaddr id,pageSize)] else []

theorem unmapWindow_eq (n : Nat) (hasEventBuffer : Bool) :
    unmapWindow (c.windowBufferUserBase id) (c.windowBufferUserBase id + c.maxWindowBufferBytes) (n * pageSize)
      (eventBufferUserVaddr id) hasEventBuffer layout = layout.unmapAll (unmappedRanges c n id hasEventBuffer) := by
  cases hasEventBuffer <;> rfl

theorem mem_unmappedRanges {range : Nat × Nat} {n : Nat} {hasEventBuffer : Bool}
    (h : range ∈ unmappedRanges c n id hasEventBuffer) :
    (∃ β ∈ c.bases id, range = (β,n * pageSize)) ∨ range = (eventBufferUserVaddr id,pageSize) := by
  unfold unmappedRanges at h
  obtain h | h := List.mem_append.mp h
  · simp only [List.mem_cons,List.not_mem_nil,or_false] at h
    obtain rfl | rfl := h
    · exact .inl ⟨_,List.mem_cons_self,rfl⟩
    · exact .inl ⟨_,List.mem_cons_of_mem _ List.mem_cons_self,rfl⟩
  · split_ifs at h
    · exact .inr (List.mem_singleton.mp h)
    · cases h

theorem unmappedRanges_aligned {range : Nat × Nat} {n : Nat} {hasEventBuffer : Bool}
    (h : range ∈ unmappedRanges c n id hasEventBuffer) :
    processWindowBufferBase ≤ range.1 ∧ pageSize ∣ range.1 ∧ pageSize ∣ range.2 := by
  obtain ⟨β,hβ,rfl⟩ | rfl := mem_unmappedRanges h
  · exact ⟨base_ge hβ,dvd_base hβ,Nat.dvd_mul_left ..⟩
  · exact ⟨event_ge id,dvd_event id,Nat.dvd_refl _⟩

end Ranges

section Frees
variable {F : Type}

/-- The frames that unmap_user_region gives back. -/
def freedByUnmap (region : MappedMemoryRegion) (table : PageTable F) : List F :=
  if region.sizeBytes ≠ 0 ∧ region.frameOwnership = .owned then
    (List.range' (region.startVirt / pageSize) (UserMemory.pageCount region.startVirt region.sizeBytes)).filterMap fun page =>
      (table page).map (·.frame)
  else []

def freedByUnmapRegion (startVirt sizeBytes : Nat) (layout : ProcessMemoryLayout F) : List F :=
  match carve startVirt (startVirt + sizeBytes) layout.regions with
  | none => []
  | some (region,_) => freedByUnmap { region with startVirt, sizeBytes } layout.table

/-- The frames that come back when ranges are unmapped one after the other. -/
def freedByUnmapAll : List (Nat × Nat) → ProcessMemoryLayout F → List F
  | [], _ => []
  | range :: ranges, layout =>
    freedByUnmapRegion range.1 range.2 layout ++ freedByUnmapAll ranges (layout.unmapRegion range.1 range.2).2

/-- The frames of its regions that free_address_space gives back. -/
def freedByRegions : List MappedMemoryRegion → PageTable F → List F
  | [], _ => []
  | region :: regions, table => freedByUnmap region table ++ freedByRegions regions (unmapUserRegion region table)

end Frees

namespace Kernel
variable {fb : FallbackHeap}

/-- The frames that destroy_window gives back, that of its event page last. -/
def freedByDestroyWindow (id : Nat) (s : Kernel fb) : List Frame :=
  if id = invalidWindowId then []
  else
    match s.compositor.windows[id]? with
    | none => []
    | some window =>
      if window.isVisible then
        ((s.layouts window.ownerPid).elim [] (freedByUnmapAll (unmappedRanges s.compositor (s.buffers window.buffer).pageCount id
          window.eventBufferPhys.isSome))) ++ window.eventBufferPhys.toList
      else []

/-- The sizes that CreateWindow refuses. -/
def Refuses (width height : Nat) (s : Kernel fb) : Prop :=
  width = 0 ∨ height = 0 ∨ width > s.compositor.framebufferWidth ∨ height > s.compositor.framebufferHeight

instance (width height : Nat) (s : Kernel fb) : Decidable (s.Refuses width height) := inferInstanceAs (Decidable (_ ∨ _))

end Kernel

/-- The frames that allocate_event_buffer_for_window takes, and those that it gives back. -/
def eventFrames (id pid serial : Nat) (page : Bool) (room : Nat → Bool) (layouts : Layouts) : List Frame × List Frame :=
  match page, layouts pid with
  | true, some layout => ([.event serial],
      if (layout.mapFrames (eventBufferUserVaddr id) [.event serial] windowFlags .borrowed room).1 then [] else [.event serial])
  | true, none => ([.event serial],[.event serial])
  | false, _ => ([],[])

/-- The window system with the frames that it has taken from the frame allocator for event pages, and all that it has
given back. -/
structure Books (fb : FallbackHeap) where
  kernel : Kernel fb
  taken : List Frame := []
  given : List Frame := []

namespace Books
variable {fb : FallbackHeap}

def createWindow (pid width height : Nat) (page : Bool) (room : Nat → Bool) (s : Books fb) : Option (Books fb) :=
  (s.kernel.createWindow pid width height page room).map fun kernel =>
    if s.kernel.Refuses width height then { s with kernel }
    else
      let frames := eventFrames (Kernel.newWindowId s.kernel.compositor) pid s.kernel.serials page room s.kernel.layouts
      { kernel, taken := frames.1 ++ s.taken, given := frames.2 ++ s.given }

def destroyWindow (id : Nat) (s : Books fb) : Books fb :=
  { s with kernel := s.kernel.destroyWindow id, given := s.kernel.freedByDestroyWindow id ++ s.given }

def destroyWindowsOfProcess (pid : Nat) (s : Books fb) : Books fb :=
  (Kernel.ownedWindowIds pid s.kernel.compositor).foldl (fun s id => s.destroyWindow id) s

def freeAddressSpace (pid : Nat) (s : Books fb) : Books fb := { s with
  kernel := { s.kernel with layouts := Function.update s.kernel.layouts pid none }
  given := (s.kernel.layouts pid).elim [] (fun layout => freedByRegions layout.regions layout.table) ++ s.given }

end Books

inductive SlotAction where
  | createWindow (pid width height : Nat) (page : Bool) (room : Nat → Bool)
  | destroyWindow (id : Nat)
  | destroyWindowsOfProcess (pid : Nat)
  | freeAddressSpace (pid : Nat)

namespace Books
variable {fb : FallbackHeap}

/-- A new window for which the kernel heap has no room is a panic. -/
def step : SlotAction → Books fb → Option (Books fb)
  | .createWindow pid width height page room, s => s.createWindow pid width height page room
  | .destroyWindow id, s => some (s.destroyWindow id)
  | .destroyWindowsOfProcess pid, s => some (s.destroyWindowsOfProcess pid)
  | .freeAddressSpace pid, s => some (s.freeAddressSpace pid)

end Books

section Guarded
variable {layout : ProcessMemoryLayout Frame} {region : MappedMemoryRegion} {serials n start size : Nat} {table : PageTable Frame}

/-- Event pages are numbered, and no region that owns its frames covers one. -/
structure Guarded (serials : Nat) (layout : ProcessMemoryLayout Frame) : Prop where
  neat : layout.Neat processWindowBufferBase
  numbered : ∀ page e n, layout.table page = some e → e.frame = .event n → n < serials
  owned : ∀ r ∈ layout.regions, r.frameOwnership = .owned → ∀ page e n, Touches r.startVirt r.endVirt page →
    layout.table page = some e → e.frame ≠ .event n

theorem touches_of_mem {page : Nat} (hsize : size ≠ 0)
    (h : page ∈ List.range' (start / pageSize) (UserMemory.pageCount start size)) : Touches start (start + size) page := by
  rw [List.mem_range'_1] at h
  unfold UserMemory.pageCount at h
  unfold Touches
  unfold pageSize at *
  omega

theorem not_mem_freedByUnmap (h : region.frameOwnership = .owned → ∀ page e, Touches region.startVirt region.endVirt page →
    table page = some e → e.frame ≠ .event n) : .event n ∉ freedByUnmap region table := by
  unfold freedByUnmap
  split_ifs with howned
  · intro hmem
    obtain ⟨page,hpage,hframe⟩ := List.mem_filterMap.mp hmem
    obtain ⟨e,he,heq⟩ := Option.map_eq_some_iff.mp hframe
    exact h howned.2 page e (touches_of_mem howned.1 hpage) he heq
  · exact List.not_mem_nil

theorem not_mem_freedByRegions {regions : List MappedMemoryRegion} (h : ∀ r ∈ regions, r.frameOwnership = .owned →
    ∀ page e, Touches r.startVirt r.endVirt page → table page = some e → e.frame ≠ .event n) :
    .event n ∉ freedByRegions regions table := by
  induction regions generalizing table with
  | nil => exact List.not_mem_nil
  | cons r regions ih =>
    rw [freedByRegions,List.mem_append,not_or]
    refine ⟨not_mem_freedByUnmap (h r List.mem_cons_self),ih fun r' hr' howned page e htouch he => ?_⟩
    unfold unmapUserRegion at he
    split_ifs at he
    exact h r' (List.mem_cons_of_mem _ hr') howned page e htouch he

namespace Guarded
variable (h : Guarded serials layout)
include h

theorem mono {serials' : Nat} (hle : serials ≤ serials') : Guarded serials' layout :=
  ⟨h.neat,fun page e n he hframe => Nat.lt_of_lt_of_le (h.numbered page e n he hframe) hle,h.owned⟩

theorem not_freed : .event n ∉ freedByUnmapRegion start size layout := by
  unfold freedByUnmapRegion
  cases hcarve : carve start (start + size) layout.regions with
  | none => exact List.not_mem_nil
  | some found =>
    obtain ⟨before,after,hregions,hstart,hend,_⟩ := carve_some hcarve
    refine not_mem_freedByUnmap fun howned page e htouch he => h.owned found.1 ?_ howned page e n ?_ he
    · rw [hregions]
      simp
    · unfold Touches MappedMemoryRegion.endVirt at *
      exact ⟨Nat.lt_of_le_of_lt hstart htouch.1,Nat.lt_of_lt_of_le htouch.2 hend⟩

theorem unmapRegion (hlo : processWindowBufferBase ≤ start) (hstart : pageSize ∣ start) (hsize : pageSize ∣ size) :
    Guarded serials (layout.unmapRegion start size).2 := by
  refine ⟨h.neat.unmapRegion hlo hstart hsize,fun page e n he => h.numbered page e n (unmapRegion_mono he),?_⟩
  intro r hr howned page e n htouch he
  have he := unmapRegion_mono he
  unfold ProcessMemoryLayout.unmapRegion at hr
  cases hcarve : carve start (start + size) layout.regions with
  | none =>
    rw [hcarve] at hr
    exact h.owned r hr howned page e n htouch he
  | some found =>
    rw [hcarve] at hr
    obtain ⟨before,after,hregions,_,_,hrest⟩ := carve_some hcarve
    change r ∈ found.2 at hr
    rw [hrest] at hr
    simp only [List.mem_append] at hr
    obtain (hr | hr) | hr := hr
    · exact h.owned r (by simp [hregions,hr]) howned page e n htouch he
    · have hpiece := mem_pieces hr
      have hkind : r.frameOwnership = found.1.frameOwnership := by
        unfold pieces at hr
        obtain hr | hr := List.mem_append.mp hr <;> split_ifs at hr <;> cases hr <;> first | rfl | contradiction
      refine h.owned found.1 (by simp [hregions]) (hkind ▸ howned) page e n ?_ he
      unfold Touches at *
      omega
    · exact h.owned r (by simp [hregions,hr]) howned page e n htouch he

theorem unmapAll {ranges : List (Nat × Nat)}
    (hranges : ∀ range ∈ ranges, processWindowBufferBase ≤ range.1 ∧ pageSize ∣ range.1 ∧ pageSize ∣ range.2) :
    Guarded serials (layout.unmapAll ranges) ∧ .event n ∉ freedByUnmapAll ranges layout := by
  induction ranges generalizing layout with
  | nil => exact ⟨h,List.not_mem_nil⟩
  | cons range ranges ih =>
    obtain ⟨hlo,hstart,hsize⟩ := hranges range List.mem_cons_self
    obtain ⟨hguarded,hfreed⟩ := ih (h.unmapRegion hlo hstart hsize) fun r hr => hranges r (List.mem_cons_of_mem _ hr)
    rw [freedByUnmapAll,List.mem_append,not_or]
    exact ⟨hguarded,h.not_freed,hfreed⟩

end Guarded

section Track

private theorem absorbNext_owned {merged : MappedMemoryRegion} {regions : List MappedMemoryRegion} :
    (absorbNext merged regions).1.frameOwnership = merged.frameOwnership ∧ (absorbNext merged regions).2 ⊆ regions := by
  induction regions generalizing merged with
  | nil => exact ⟨rfl,List.Subset.refl _⟩
  | cons next rest ih =>
    rw [absorbNext]
    split_ifs
    · exact ⟨ih.1,List.Subset.trans ih.2 (List.subset_cons_self ..)⟩
    · exact ⟨rfl,List.Subset.refl _⟩

private theorem absorbPrevious_owned {merged : MappedMemoryRegion} {before : List MappedMemoryRegion} :
    (absorbPrevious merged before).1.frameOwnership = merged.frameOwnership ∧ (absorbPrevious merged before).2 ⊆ before := by
  unfold absorbPrevious
  cases before.getLast? with
  | none => exact ⟨rfl,List.Subset.refl _⟩
  | some previous =>
    dsimp only
    split_ifs
    · exact ⟨rfl,List.dropLast_subset _⟩
    · exact ⟨rfl,List.Subset.refl _⟩

/-- A borrowed region that is tracked touches no owned one. -/
theorem mem_of_trackRegion {r : MappedMemoryRegion} {regions : List MappedMemoryRegion} (h : r ∈ trackRegion region regions)
    (hkind : r.frameOwnership ≠ region.frameOwnership) : r ∈ regions := by
  unfold trackRegion at h
  dsimp only at h
  obtain ⟨hprevious,hbefore⟩ := @absorbPrevious_owned { region with
    startVirt := alignDownToPageSize region.startVirt
    sizeBytes := alignToPageSize region.endVirt - alignDownToPageSize region.startVirt }
    (regions.takeWhile fun existing => existing.startVirt < alignDownToPageSize region.startVirt)
  obtain h | h := List.mem_append.mp h
  · exact List.takeWhile_subset _ (hbefore h)
  obtain ⟨hnext,hafter⟩ := @absorbNext_owned (absorbPrevious { region with
    startVirt := alignDownToPageSize region.startVirt
    sizeBytes := alignToPageSize region.endVirt - alignDownToPageSize region.startVirt }
    (regions.takeWhile fun existing => existing.startVirt < alignDownToPageSize region.startVirt)).1
    (regions.dropWhile fun existing => existing.startVirt < alignDownToPageSize region.startVirt)
  obtain rfl | h := List.mem_cons.mp h
  · exact absurd (hnext.trans hprevious) hkind
  · exact (List.dropWhile_suffix _).subset (hafter h)

end Track

/-- A new event page is mapped where no owned region is. -/
theorem Guarded.mapEvent (h : Guarded serials layout) (id : Nat) (room : Nat → Bool) :
    Guarded (serials + 1) (layout.mapFrames (eventBufferUserVaddr id) [.event serials] windowFlags .borrowed room).2 := by
  have hpage : eventBufferUserVaddr id = eventBufferUserVaddr id / pageSize * pageSize := (Nat.div_mul_cancel (dvd_event id)).symm
  have hlo := event_ge id
  rw [hpage] at hlo ⊢
  generalize eventBufferUserVaddr id / pageSize = first at hlo
  have hfresh : Fresh first [Frame.event serials] layout.table := by
    intro i e he hframe
    cases i with
    | zero => exact Nat.lt_irrefl _ (h.numbered _ e serials he (Option.some.inj hframe).symm)
    | succ i => cases hframe
  have howned : ∀ r ∈ (layout.mapFrames (first * pageSize) [.event serials] windowFlags .borrowed room).2.regions,
      r.frameOwnership = .owned → r ∈ layout.regions := by
    intro r hr howned
    unfold mapFrames at hr
    rw [if_neg (List.cons_ne_nil _ _)] at hr
    generalize mapLoop (first * pageSize) windowFlags room 0 [Frame.event serials] layout.table = mapped at hr
    obtain ⟨ok,table⟩ := mapped
    cases ok with
    | true => exact mem_of_trackRegion hr (by rw [howned]; nofun)
    | false => exact hr
  have hmapped : (layout.mapFrames (first * pageSize) [.event serials] windowFlags .borrowed room).1 = true ∧ _ ∨ _ :=
    h.neat.mapFrames hlo hfresh
  obtain ⟨_,htable,hnone,hneat,_⟩ | ⟨_,hsame⟩ := hmapped
  · have hnew := hnone 0 Nat.zero_lt_one
    refine ⟨hneat,fun page e n he hframe => ?_,fun r hr hown page e n htouch he hframe => ?_⟩
    · rw [htable] at he
      obtain he | ⟨hle,hframe'⟩ := placed_cases he
      · exact Nat.lt_succ_of_lt (h.numbered page e n he hframe)
      · cases hpage' : page - first with
        | zero =>
          rw [hpage',List.getElem?_cons_zero,hframe] at hframe'
          cases hframe'
          exact Nat.lt_succ_self _
        | succ i =>
          rw [hpage'] at hframe'
          cases hframe'
    · have hold := howned r hr hown
      rw [htable] at he
      obtain he | ⟨hle,hframe'⟩ := placed_cases he
      · exact h.owned r hold hown page e n htouch he hframe
      · -- an owned region has no page that is not mapped
        have hpage' : page = first := by
          have hlt := (List.getElem?_eq_some_iff.mp hframe').1
          simp only [List.length_singleton] at hlt
          omega
        rw [hpage'] at htouch
        exact h.neat.mapped r hold first hlo htouch hnew
  · rw [hsame]
    exact h.mono (Nat.le_succ _)

end Guarded
section Accounted
variable {fb : FallbackHeap} {s t : Books fb} {n : Nat}

/-- The window has this frame as its event page. -/
def Holds (f : Frame) (w : Window) : Bool := decide (w.eventBufferPhys = some f)

/-- What holds between the calls. Each event frame that was taken is with one window or has been given back. -/
structure Books.Accounted (s : Books fb) : Prop where
  numbered : s.kernel.compositor.Numbered
  complete : Slots.Complete Window.isVisible s.kernel.compositor.freeWindowIds s.kernel.compositor.windows
  hidden : ∀ (i : Nat) (w : Window), s.kernel.compositor.windows[i]? = some w → w.isVisible = false → w.eventBufferPhys = none
  held : ∀ (i : Nat) (w : Window) (f : Frame), s.kernel.compositor.windows[i]? = some w → w.eventBufferPhys = some f → ∃ n, f = .event n
  guarded : ∀ pid layout, s.kernel.layouts pid = some layout → Guarded s.kernel.serials layout
  nodup : s.taken.Nodup
  old : ∀ f ∈ s.taken, ∃ n < s.kernel.serials, f = .event n
  balance : ∀ n, s.given.count (.event n) + s.kernel.compositor.windows.countP (Holds (.event n)) = s.taken.count (.event n)

/-- No frame of a window is mapped yet. -/
structure Untouched (layout : ProcessMemoryLayout Frame) : Prop where
  neat : layout.Neat processWindowBufferBase
  none : ∀ page e, layout.table page = some e → e.frame.serial = none

/-- An empty table on a screen of this size. -/
def Books.start (width height : Nat) (layouts : Layouts) : Books fb :=
  { kernel := .start { framebufferWidth := width, framebufferHeight := height } layouts }

theorem Books.Accounted.start {width height : Nat} {layouts : Layouts}
    (h : ∀ pid layout, layouts pid = some layout → Untouched layout) : (Books.start width height layouts : Books fb).Accounted := by
  refine ⟨⟨rfl,nofun,nofun,List.nodup_nil⟩,nofun,nofun,nofun,fun pid layout hlayout => ?_,List.nodup_nil,nofun,fun _ => rfl⟩
  obtain ⟨hneat,hnone⟩ := h pid layout hlayout
  refine ⟨hneat,fun page e n he hframe => ?_,fun _ _ _ page e n _ he hframe => ?_⟩
  all_goals
    have hserial := hnone page e he
    rw [hframe] at hserial
    cases hserial

section Create
variable {pid width height : Nat} {page : Bool} {room : Nat → Bool}

/-- What a new window changes. -/
theorem createWindow_cases {k k' : Kernel fb} (h : k.createWindow pid width height page room = some k') :
    k.Refuses width height ∧ k' = k ∨ ¬ k.Refuses width height ∧ k'.serials = k.serials + 1 ∧
      k'.layouts = (Kernel.allocateEventBufferForWindow (Kernel.newWindowId k.compositor) pid k.serials page room k.layouts).2 ∧
      k'.compositor = Kernel.placeWindow (fun id => ⟨id,pid,true,k.serials,
        (Kernel.allocateEventBufferForWindow (Kernel.newWindowId k.compositor) pid k.serials page room k.layouts).1⟩) k.compositor := by
  have hrelease : ∀ (serial : Nat) (k : Kernel fb), (k.release serial).serials = k.serials ∧ (k.release serial).layouts = k.layouts ∧
      (k.release serial).compositor = k.compositor := by
    intro serial k
    unfold Kernel.release
    split_ifs <;> exact ⟨rfl,rfl,rfl⟩
  unfold Kernel.createWindow at h
  split_ifs at h with hrefuses
  · exact .inl ⟨hrefuses,(Option.some.inj h).symm⟩
  · obtain ⟨⟨backBuffer,heap⟩,_,h⟩ := Option.bind_eq_some_iff.mp h
    obtain ⟨⟨frontBuffer,heap'⟩,_,h⟩ := Option.map_eq_some_iff.mp h
    refine .inr ⟨hrefuses,?_⟩
    dsimp only at h
    cases hold : k.compositor.windows[Kernel.newWindowId k.compositor]? with
    | none =>
      rw [hold] at h
      subst h
      exact ⟨rfl,rfl,rfl⟩
    | some old =>
      rw [hold] at h
      subst h
      obtain ⟨hserials,hlayouts,hcompositor⟩ := hrelease old.buffer { k with
        compositor := Kernel.placeWindow (fun id => ⟨id,pid,true,k.serials,
          (Kernel.allocateEventBufferForWindow (Kernel.newWindowId k.compositor) pid k.serials page room k.layouts).1⟩) k.compositor
        buffers := Function.update k.buffers k.serials ⟨width,height,backBuffer,frontBuffer⟩
        serials := k.serials + 1
        calls := ⟨pid,k.serials,none⟩ :: k.calls
        layouts := (Kernel.allocateEventBufferForWindow (Kernel.newWindowId k.compositor) pid k.serials page room k.layouts).2
        heap := heap'
        live := ⟨(backBuffer,(⟨width,height,0,0⟩ : WindowBuffer).layout),some k.serials⟩ ::
          ⟨(frontBuffer,(⟨width,height,0,0⟩ : WindowBuffer).layout),some k.serials⟩ :: k.live }
      exact ⟨hserials,hlayouts,hcompositor⟩

/-- The event page of a new window is the frame taken for it, unless that was given back. -/
theorem eventFrames_cases (id pid serial : Nat) (page : Bool) (room : Nat → Bool) (layouts : Layouts) :
    eventFrames id pid serial page room layouts = ([],[]) ∧
        (Kernel.allocateEventBufferForWindow id pid serial page room layouts).1 = none ∨
      eventFrames id pid serial page room layouts = ([.event serial],[.event serial]) ∧
        (Kernel.allocateEventBufferForWindow id pid serial page room layouts).1 = none ∨
      eventFrames id pid serial page room layouts = ([.event serial],[]) ∧
        (Kernel.allocateEventBufferForWindow id pid serial page room layouts).1 = some (.event serial) := by
  unfold eventFrames Kernel.allocateEventBufferForWindow
  cases page with
  | false => exact .inl ⟨rfl,rfl⟩
  | true =>
    cases layouts pid with
    | none => exact .inr (.inl ⟨rfl,rfl⟩)
    | some layout =>
      dsimp only
      split_ifs
      · exact .inr (.inr ⟨rfl,rfl⟩)
      · exact .inr (.inl ⟨rfl,rfl⟩)

theorem guarded_allocate {serials id : Nat} {layouts : Layouts}
    (h : ∀ pid layout, layouts pid = some layout → Guarded serials layout) (pid' : Nat) (layout : ProcessMemoryLayout Frame)
    (hlayout : (Kernel.allocateEventBufferForWindow id pid serials page room layouts).2 pid' = some layout) :
    Guarded (serials + 1) layout := by
  unfold Kernel.allocateEventBufferForWindow at hlayout
  split at hlayout
  · rename_i old hold
    by_cases hpid : pid' = pid
    · subst hpid
      dsimp only at hlayout
      rw [Function.update_self] at hlayout
      cases hlayout
      exact (h _ _ hold).mapEvent id room
    · dsimp only at hlayout
      rw [Function.update_of_ne hpid] at hlayout
      exact (h pid' layout hlayout).mono (Nat.le_succ _)
  · exact (h pid' layout hlayout).mono (Nat.le_succ _)

/-- A new window takes the place of a hidden one, with its event page or without. -/
theorem Books.Accounted.place {k : Kernel fb} {frames : List Frame × List Frame} {phys : Option Frame} (h : s.Accounted)
    (hserials : k.serials = s.kernel.serials + 1) (hguarded : ∀ pid layout, k.layouts pid = some layout → Guarded k.serials layout)
    (hcompositor : k.compositor = Kernel.placeWindow (fun id => ⟨id,pid,true,s.kernel.serials,phys⟩) s.kernel.compositor)
    (hframes : frames = ([],[]) ∧ phys = none ∨
      frames = ([.event s.kernel.serials],[.event s.kernel.serials]) ∧ phys = none ∨
      frames = ([.event s.kernel.serials],[]) ∧ phys = some (.event s.kernel.serials)) :
    ({ kernel := k, taken := frames.1 ++ s.taken, given := frames.2 ++ s.given } : Books fb).Accounted := by
  have hnew : Frame.event s.kernel.serials ∉ s.taken := by
    intro hmem
    obtain ⟨m,hm,heq⟩ := h.old _ hmem
    cases heq
    exact Nat.lt_irrefl _ hm
  have htaken : frames.1 = [] ∨ frames.1 = [.event s.kernel.serials] := by
    obtain ⟨rfl,_⟩ | ⟨rfl,_⟩ | ⟨rfl,_⟩ := hframes
    · exact .inl rfl
    · exact .inr rfl
    · exact .inr rfl
  refine ⟨hcompositor ▸ h.numbered.placeWindow fun _ => rfl,?_,fun i w hw hhidden => ?_,fun i w f hw hphys => ?_,hguarded,?_,
    fun f hf => ?_,fun n => ?_⟩
  · rw [hcompositor,placeWindow_eq]
    exact h.complete.place (Compositor.numbered_iff.mp h.numbered) rfl
  · rw [hcompositor,h.numbered.placeWindow_windows] at hw
    split_ifs at hw
    · cases hw
      cases hhidden
    · exact h.hidden i w hw hhidden
  · rw [hcompositor,h.numbered.placeWindow_windows] at hw
    split_ifs at hw
    · cases hw
      obtain ⟨_,rfl⟩ | ⟨_,rfl⟩ | ⟨_,rfl⟩ := hframes
      · cases hphys
      · cases hphys
      · exact ⟨_,(Option.some.inj hphys).symm⟩
    · exact h.held i w f hw hphys
  · obtain hnone | hone := htaken
    · rw [hnone]
      exact h.nodup
    · rw [hone]
      exact List.nodup_cons.mpr ⟨hnew,h.nodup⟩
  · change ∃ n < k.serials, f = .event n
    rw [hserials]
    obtain hf | hf := List.mem_append.mp hf
    · obtain hnone | hone := htaken
      · rw [hnone] at hf
        cases hf
      · rw [hone] at hf
        exact ⟨s.kernel.serials,Nat.lt_succ_self _,List.mem_singleton.mp hf⟩
    · obtain ⟨n,hn,heq⟩ := h.old f hf
      exact ⟨n,Nat.lt_succ_of_lt hn,heq⟩
  · have hcount : k.compositor.windows.countP (Holds (.event n)) =
        s.kernel.compositor.windows.countP (Holds (.event n)) + if phys = some (.event n) then 1 else 0 := by
      rw [hcompositor,placeWindow_eq]
      refine (Slots.countP_put fun w hw => ?_).trans ?_
      · rw [Holds,h.hidden _ w hw (h.numbered.replaced hw)]
        rfl
      · simp only [Holds,decide_eq_true_eq]
    have hbalance := h.balance n
    dsimp only
    rw [hcount,List.count_append,List.count_append]
    by_cases hn : n = s.kernel.serials
    · subst hn
      obtain ⟨rfl,rfl⟩ | ⟨rfl,rfl⟩ | ⟨rfl,rfl⟩ := hframes <;> simp <;> omega
    · have hne : Frame.event s.kernel.serials ≠ .event n := fun heq => hn (Frame.event.inj heq).symm
      obtain ⟨rfl,rfl⟩ | ⟨rfl,rfl⟩ | ⟨rfl,rfl⟩ := hframes <;> simp [hne] <;> omega

theorem Books.Accounted.createWindow (h : s.Accounted) (hrun : s.createWindow pid width height page room = some t) : t.Accounted := by
  obtain ⟨k,hk,rfl⟩ := Option.map_eq_some_iff.mp hrun
  obtain ⟨hrefuses,rfl⟩ | ⟨hrefuses,hserials,hlayouts,hcompositor⟩ := createWindow_cases hk
  · rw [if_pos hrefuses]
    exact h
  · rw [if_neg hrefuses]
    refine h.place hserials (fun pid' layout hlayout => ?_) hcompositor (eventFrames_cases ..)
    rw [hlayouts] at hlayout
    rw [hserials]
    exact guarded_allocate h.guarded pid' layout hlayout

end Create
section Destroy

/-- A visible window goes, and its event page with it. -/
theorem Books.Accounted.destroyWindow (h : s.Accounted) (id : Nat) : (s.destroyWindow id).Accounted ∧
    ∀ w n, id ≠ invalidWindowId → s.kernel.compositor.windows[id]? = some w → w.eventBufferPhys = some (.event n) →
      (s.destroyWindow id).given.count (.event n) = s.given.count (.event n) + 1 := by
  unfold Books.destroyWindow Kernel.destroyWindow Kernel.freedByDestroyWindow
  by_cases hid : id = invalidWindowId
  · rw [if_pos hid,if_pos hid]
    exact ⟨h,fun _ _ hne => absurd hid hne⟩
  rw [if_neg hid,if_neg hid]
  cases hw : s.kernel.compositor.windows[id]? with
  | none => exact ⟨h,nofun⟩
  | some w =>
    dsimp only
    by_cases hvisible : w.isVisible = true
    · rw [if_pos hvisible,if_pos hvisible]
      have hlt := (List.getElem?_eq_some_iff.mp hw).1
      have hslot : ∀ (i : Nat) (u : Window), (s.kernel.compositor.windows.set id { w with isVisible := false, eventBufferPhys := none })[i]? =
          some u → u.eventBufferPhys = none ∨ s.kernel.compositor.windows[i]? = some u := by
        intro i u hu
        rw [List.getElem?_set] at hu
        split_ifs at hu
        · cases hu
          exact .inl rfl
        · exact .inr hu
      have hunmapped : ∀ (layout : ProcessMemoryLayout Frame) (n : Nat), Guarded s.kernel.serials layout →
          Guarded s.kernel.serials (layout.unmapAll (unmappedRanges s.kernel.compositor (s.kernel.buffers w.buffer).pageCount id
            w.eventBufferPhys.isSome)) ∧ .event n ∉ freedByUnmapAll (unmappedRanges s.kernel.compositor
              (s.kernel.buffers w.buffer).pageCount id w.eventBufferPhys.isSome) layout :=
        fun layout n hlayout => hlayout.unmapAll fun range hr => unmappedRanges_aligned hr
      have hfreed : ∀ n, ((s.kernel.layouts w.ownerPid).elim [] (freedByUnmapAll (unmappedRanges s.kernel.compositor
          (s.kernel.buffers w.buffer).pageCount id w.eventBufferPhys.isSome))).count (.event n) = 0 := by
        intro n
        cases hlayout : s.kernel.layouts w.ownerPid with
        | none => rfl
        | some layout => exact List.count_eq_zero.mpr (hunmapped layout n (h.guarded _ _ hlayout)).2
      have hgiven : ∀ n, w.eventBufferPhys.toList.count (.event n) = if w.eventBufferPhys = some (.event n) then 1 else 0 := by
        intro n
        cases w.eventBufferPhys with
        | none => rfl
        | some f => simp [List.count_singleton]
      refine ⟨⟨h.numbered.hide hw hvisible rfl rfl,h.complete.hide,fun i u hu hhidden => ?_,fun i u f hu hphys => ?_,
        fun pid layout hlayout => ?_,h.nodup,h.old,fun n => ?_⟩,fun u n _ hu hphys => ?_⟩
      · exact (hslot i u hu).elim (fun hnone => hnone) fun hu => h.hidden i u hu hhidden
      · obtain hnone | hu := hslot i u hu
        · rw [hnone] at hphys
          cases hphys
        · exact h.held i u f hu hphys
      · change Function.update s.kernel.layouts w.ownerPid _ pid = some layout at hlayout
        change Guarded s.kernel.serials layout
        by_cases hpid : pid = w.ownerPid
        · rw [hpid,Function.update_self] at hlayout
          obtain ⟨old,hold,rfl⟩ := Option.map_eq_some_iff.mp hlayout
          rw [unmapWindow_eq]
          exact (hunmapped old 0 (h.guarded _ _ hold)).1
        · rw [Function.update_of_ne hpid] at hlayout
          exact h.guarded pid layout hlayout
      · have hbalance := h.balance n
        have hheld : Holds (.event n) s.kernel.compositor.windows[id] = decide (w.eventBufferPhys = some (.event n)) := by
          obtain ⟨_,rfl⟩ := List.getElem?_eq_some_iff.mp hw
          rfl
        have hpos : w.eventBufferPhys = some (.event n) → 0 < s.kernel.compositor.windows.countP (Holds (.event n)) :=
          fun hphys => List.countP_pos_iff.mpr ⟨_,List.getElem_mem hlt,hheld.trans (decide_eq_true hphys)⟩
        have hcount : (s.kernel.compositor.windows.set id { w with isVisible := false, eventBufferPhys := none }).countP (Holds (.event n)) =
            s.kernel.compositor.windows.countP (Holds (.event n)) - if w.eventBufferPhys = some (.event n) then 1 else 0 := by
          rw [List.countP_set hlt,hheld]
          simp [Holds]
        dsimp only
        rw [hcount,List.count_append,List.count_append,hfreed,hgiven]
        split_ifs with hphys
        · have := hpos hphys
          omega
        · omega
      · cases hu
        rw [List.count_append,List.count_append,hfreed,hgiven,if_pos hphys]
        omega
    · rw [if_neg hvisible,if_neg hvisible]
      refine ⟨h,fun u n _ hu hphys => ?_⟩
      cases hu
      rw [h.hidden id w hw (Bool.eq_false_iff.mpr hvisible)] at hphys
      cases hphys

theorem Books.Accounted.destroyWindowsOfProcess (h : s.Accounted) (pid : Nat) : (s.destroyWindowsOfProcess pid).Accounted := by
  unfold Books.destroyWindowsOfProcess
  generalize Kernel.ownedWindowIds pid s.kernel.compositor = ids
  induction ids generalizing s with
  | nil => exact h
  | cons id ids ih => exact ih (h.destroyWindow id).1

theorem Books.Accounted.freeAddressSpace (h : s.Accounted) (pid : Nat) : (s.freeAddressSpace pid).Accounted := by
  have hfreed : ∀ n, ((s.kernel.layouts pid).elim [] fun layout => freedByRegions layout.regions layout.table).count (.event n) = 0 := by
    intro n
    cases hlayout : s.kernel.layouts pid with
    | none => rfl
    | some layout =>
      refine List.count_eq_zero.mpr (not_mem_freedByRegions fun r hr howned page e htouch he => ?_)
      exact (h.guarded pid layout hlayout).owned r hr howned page e n htouch he
  refine ⟨h.numbered,h.complete,h.hidden,h.held,fun pid' layout hlayout => ?_,h.nodup,h.old,fun n => ?_⟩
  · change Function.update s.kernel.layouts pid none pid' = some layout at hlayout
    by_cases hpid : pid' = pid
    · rw [hpid,Function.update_self] at hlayout
      cases hlayout
    · rw [Function.update_of_ne hpid] at hlayout
      exact h.guarded pid' layout hlayout
  · have hbalance := h.balance n
    change (_ ++ s.given).count (.event n) + _ = _
    rw [List.count_append,hfreed,Nat.zero_add]
    exact hbalance

end Destroy
section Run

theorem Books.Accounted.step (h : s.Accounted) {a : SlotAction} (hrun : Books.step a s = some t) : t.Accounted := by
  cases a with
  | createWindow pid width height page room => exact h.createWindow hrun
  | destroyWindow id =>
    cases hrun
    exact (h.destroyWindow id).1
  | destroyWindowsOfProcess pid =>
    cases hrun
    exact h.destroyWindowsOfProcess pid
  | freeAddressSpace pid =>
    cases hrun
    exact h.freeAddressSpace pid

/-- The table, the free ids and the frames of the event pages agree. -/
structure Books.InStep (s : Books fb) : Prop where
  ids : ∀ (i : Nat) (w : Window), s.kernel.compositor.windows[i]? = some w → w.id = i
  free : s.kernel.compositor.freeWindowIds.Nodup ∧ ∀ id, id ∈ s.kernel.compositor.freeWindowIds ↔
    ∃ w, s.kernel.compositor.windows[id]? = some w ∧ w.isVisible = false
  next : s.kernel.compositor.nextWindowId = s.kernel.compositor.windows.length
  /-- A frame is with one window, which is visible, or has been given back once. -/
  once : ∀ n, .event n ∈ s.taken →
    s.given.count (.event n) + s.kernel.compositor.windows.countP (fun w => w.isVisible && Holds (.event n) w) = 1
  taken : ∀ n, .event n ∈ s.given → .event n ∈ s.taken
  /-- The destruction of a window is what gives its frame back. -/
  destroyed : ∀ (id : Nat) (w : Window) (f : Frame), id ≠ invalidWindowId → s.kernel.compositor.windows[id]? = some w →
    w.eventBufferPhys = some f → f ∉ s.given ∧ (s.destroyWindow id).given.count f = 1

theorem Books.Accounted.inStep (h : s.Accounted) : s.InStep := by
  have htaken : ∀ n, s.taken.count (.event n) ≤ 1 := fun n => List.nodup_iff_count_le_one.mp h.nodup _
  have hvisible : ∀ n, s.kernel.compositor.windows.countP (fun w => w.isVisible && Holds (.event n) w) =
      s.kernel.compositor.windows.countP (Holds (.event n)) := by
    refine fun n => List.countP_congr fun w hw => ?_
    obtain ⟨i,hi⟩ := List.getElem?_of_mem hw
    cases hv : w.isVisible with
    | true => simp
    | false => simp [Holds,h.hidden i w hi hv]
  refine ⟨h.numbered.ids,⟨h.numbered.nodup,fun id => ⟨h.numbered.free id,fun ⟨w,hw,hhidden⟩ => h.complete id w hw hhidden⟩⟩,
    h.numbered.next,fun n hn => ?_,fun n hn => ?_,fun id w f hne hw hphys => ?_⟩
  · have hbalance := h.balance n
    have hpos := List.count_pos_iff.mpr hn
    have hle := htaken n
    rw [hvisible]
    omega
  · have hbalance := h.balance n
    have hpos := List.count_pos_iff.mpr hn
    exact List.count_pos_iff.mp (by omega)
  · obtain ⟨n,rfl⟩ := h.held id w f hw hphys
    have hbalance := h.balance n
    have hle := htaken n
    have hpos : 0 < s.kernel.compositor.windows.countP (Holds (.event n)) :=
      List.countP_pos_iff.mpr ⟨w,List.mem_of_getElem? hw,decide_eq_true hphys⟩
    refine ⟨List.count_eq_zero.mp (by omega),?_⟩
    rw [(h.destroyWindow id).2 w n hne hw hphys]
    omega

/-- After every run of the calls on an empty table they agree. -/
theorem run_keeps_inStep (fb : FallbackHeap) (width height : Nat) (layouts : Layouts) (acts : List SlotAction) (t : Books fb)
    (h : ∀ pid layout, layouts pid = some layout → Untouched layout)
    (hrun : steps Books.step acts (Books.start width height layouts : Books fb) = some t) : t.InStep :=
  (steps_keep (fun _ _ _ hs hstep => hs.step hstep) (.start h) hrun : t.Accounted).inStep

/-- A process that has mapped nothing. -/
def soleProcess : Layouts := fun pid => if pid = 1 then some ⟨fun _ => none,[]⟩ else none

theorem soleProcess_untouched (pid : Nat) (layout : ProcessMemoryLayout Frame) (h : soleProcess pid = some layout) :
    Untouched layout := by
  unfold soleProcess at h
  split_ifs at h
  cases h
  exact ⟨⟨nofun,List.Pairwise.nil,nofun⟩,nofun⟩

/-- A window that is destroyed twice, and one that takes its slot. -/
def reusedSlot : List SlotAction :=
  [.createWindow 1 10 10 true fun _ => true,.destroyWindow 0,.destroyWindow 0,.createWindow 1 20 20 true fun _ => true]

theorem reusedSlot_inStep : ∃ t : Books KernelHeap.risingHeap, steps Books.step reusedSlot (Books.start 640 480 soleProcess) = some t ∧
    t.InStep := by
  have hruns : (steps Books.step reusedSlot (Books.start 640 480 soleProcess : Books KernelHeap.risingHeap)).isSome = true := by
    decide +kernel
  obtain ⟨t,hrun⟩ := Option.isSome_iff_exists.mp hruns
  exact ⟨t,hrun,run_keeps_inStep _ 640 480 soleProcess reusedSlot t soleProcess_untouched hrun⟩

end Run
end Accounted
end MofuOS.Graphics.Windows
