import MofuOS.Graphics.WindowSlots
import MofuOS.Process.CreateProcess
import MofuOS.Process.Syscall
import MofuOS.Lib.Arena

/-! The addresses that grow with the id of a window, and what else is at fixed addresses of a process. -/
namespace MofuOS.Graphics.Windows
open Lib Memory Process

def Compositor.backBufferRange (id : Nat) (c : Compositor) : Region := ⟨c.windowBufferUserBase id,c.maxWindowBufferBytes⟩
def Compositor.frontBufferRange (id : Nat) (c : Compositor) : Region :=
  ⟨c.windowBufferUserBase id + c.maxWindowBufferBytes,c.maxWindowBufferBytes⟩

def eventPage (id : Nat) : Region := ⟨eventBufferUserVaddr id,pageSize⟩
def sharedDataPage : Region := ⟨programSharedDataAddr,pageSize⟩
def heapRange : Region := ⟨processHeapVirtStart,processWindowBufferBase - processHeapVirtStart⟩
def stackRange : Region := ⟨userStackTop - defaultNewProcessStackSize,defaultNewProcessStackSize⟩

/-- Both buffers of a window are apart from a range. -/
def Compositor.BuffersApart (id : Nat) (r : Region) (c : Compositor) : Prop :=
  (c.backBufferRange id).Apart r ∧ (c.frontBufferRange id).Apart r

/-- The compositor counts the ids up to the one that is invalid. -/
structure Compositor.CollisionFree (id : Nat) (c : Compositor) : Prop where
  buffers : ∀ id' < invalidWindowId, id' ≠ id → c.BuffersApart id (c.backBufferRange id') ∧ c.BuffersApart id (c.frontBufferRange id')
  events : ∀ id' < invalidWindowId, c.BuffersApart id (eventPage id')
  sharedData : c.BuffersApart id sharedDataPage
  heap : c.BuffersApart id heapRange
  stack : c.BuffersApart id stackRange
  below : (c.backBufferRange id).stop ≤ userMemMaxAddress ∧ (c.frontBufferRange id).stop ≤ userMemMaxAddress ∧
    (eventPage id).stop ≤ userMemMaxAddress

/-- One past the front buffer of the window. -/
def Compositor.slotEnd (id : Nat) (c : Compositor) : Nat := c.windowBufferUserBase id + 2 * c.maxWindowBufferBytes

/-- The slot of the window lies below the shared data page, between it and the event pages, or behind them. -/
def Compositor.SlotFits (id : Nat) (c : Compositor) : Prop :=
  c.maxWindowBufferBytes = 0 ∨ c.slotEnd id ≤ programSharedDataAddr ∨
    programSharedDataAddr + pageSize ≤ c.windowBufferUserBase id ∧ c.slotEnd id ≤ processEventBufferBase ∨
    eventBufferUserVaddr invalidWindowId ≤ c.windowBufferUserBase id ∧ c.slotEnd id ≤ userStackTop - defaultNewProcessStackSize

variable {c : Compositor} {id : Nat} {r : Region}

/-- A range that is not empty does not fit between the two buffers. -/
theorem buffersApart_iff (hc : 0 < c.maxWindowBufferBytes) (hr : 0 < r.len) :
    c.BuffersApart id r ↔ c.slotEnd id ≤ r.off ∨ r.stop ≤ c.windowBufferUserBase id := by
  unfold Compositor.BuffersApart Compositor.backBufferRange Compositor.frontBufferRange Compositor.slotEnd Region.Apart Region.stop
  dsimp only
  omega

theorem buffersApart_of_empty (hc : c.maxWindowBufferBytes = 0) : c.BuffersApart id r := ⟨.inl hc,.inl hc⟩

theorem windowBufferUserBase_ge (id : Nat) (c : Compositor) : processWindowBufferBase ≤ c.windowBufferUserBase id :=
  Nat.le_add_right ..

theorem buffersApart_buffers {id' : Nat} (hne : id' ≠ id) :
    c.BuffersApart id (c.backBufferRange id') ∧ c.BuffersApart id (c.frontBufferRange id') := by
  have hback : ∀ i, c.windowBufferUserBase i ∈ c.bases i := fun i => List.mem_cons_self
  have hfront : ∀ i, c.windowBufferUserBase i + c.maxWindowBufferBytes ∈ c.bases i :=
    fun i => List.mem_cons_of_mem _ List.mem_cons_self
  have hapart : ∀ β ∈ c.bases id, ∀ β' ∈ c.bases id',
      (⟨β,c.maxWindowBufferBytes⟩ : Region).Apart ⟨β',c.maxWindowBufferBytes⟩ :=
    fun β hβ β' hβ' => .inr (.inr (bases_apart hβ hβ' (Ne.symm hne) (Nat.le_refl _) (Nat.le_refl _)))
  exact ⟨⟨hapart _ (hback id) _ (hback id'),hapart _ (hfront id) _ (hback id')⟩,
    ⟨hapart _ (hback id) _ (hfront id'),hapart _ (hfront id) _ (hfront id')⟩⟩

/-- The event pages follow one another, so that a slot meets one of them wherever it meets their range. -/
theorem buffersApart_eventPages (hc : 0 < c.maxWindowBufferBytes) :
    (∀ id' < invalidWindowId, c.BuffersApart id (eventPage id')) ↔
      c.slotEnd id ≤ processEventBufferBase ∨ eventBufferUserVaddr invalidWindowId ≤ c.windowBufferUserBase id := by
  have hpages : ∀ id', c.BuffersApart id (eventPage id') ↔
      c.slotEnd id ≤ eventBufferUserVaddr id' ∨ eventBufferUserVaddr id' + pageSize ≤ c.windowBufferUserBase id :=
    fun id' => buffersApart_iff hc (show 0 < pageSize by decide)
  simp only [hpages]
  have hslot : c.windowBufferUserBase id < c.slotEnd id := by
    unfold Compositor.slotEnd
    omega
  generalize c.windowBufferUserBase id = base at *
  generalize c.slotEnd id = stop at *
  constructor
  · intro h
    by_contra hmeets
    have hfirst := h 0 (by decide)
    have hpage := h ((base - processEventBufferBase) / pageSize)
    unfold eventBufferUserVaddr processEventBufferBase pageSize invalidWindowId at *
    omega
  · intro h id' hid'
    unfold eventBufferUserVaddr processEventBufferBase pageSize invalidWindowId at *
    omega

theorem eventPage_below (hid : id < invalidWindowId) : (eventPage id).stop ≤ userMemMaxAddress := by
  change 0x800000000 + id * 4096 + 4096 ≤ 0x0000_8000_0000_0000
  unfold invalidWindowId at hid
  omega

/-- The slot of a window meets none of the others and nothing at a fixed address exactly when it fits. -/
theorem collisionFree_iff (hid : id < invalidWindowId) : c.CollisionFree id ↔ c.SlotFits id := by
  have hbase := windowBufferUserBase_ge id c
  have hback : (c.backBufferRange id).stop = c.windowBufferUserBase id + c.maxWindowBufferBytes := rfl
  have hfront : (c.frontBufferRange id).stop = c.slotEnd id := by
    change _ + c.maxWindowBufferBytes + c.maxWindowBufferBytes = _ + 2 * c.maxWindowBufferBytes
    omega
  have hslot : c.slotEnd id = c.windowBufferUserBase id + 2 * c.maxWindowBufferBytes := rfl
  obtain hzero | hpos := Nat.eq_zero_or_pos c.maxWindowBufferBytes
  · refine ⟨fun _ => .inl hzero,fun _ => ?_⟩
    have hempty : c.windowBufferUserBase id = processWindowBufferBase := by
      unfold Compositor.windowBufferUserBase
      rw [hzero]
      rfl
    refine ⟨fun _ _ hne => buffersApart_buffers hne,fun _ _ => buffersApart_of_empty hzero,buffersApart_of_empty hzero,
      buffersApart_of_empty hzero,buffersApart_of_empty hzero,?_,?_,eventPage_below hid⟩
    · rw [hback,hzero,hempty]
      decide
    · rw [hfront,hslot,hzero,hempty]
      decide
  · -- a buffer is a page long at least, and above the stack only a page is left
    have hpage : pageSize ≤ c.maxWindowBufferBytes := Nat.le_of_dvd hpos (dvd_maxWindowBufferBytes c)
    have hshared : c.BuffersApart id sharedDataPage ↔ _ := buffersApart_iff hpos (show 0 < pageSize by decide)
    have hheap : c.BuffersApart id heapRange ↔ _ := buffersApart_iff hpos (show 0 < _ - _ by decide)
    have hstack : c.BuffersApart id stackRange ↔ _ := buffersApart_iff hpos (show 0 < defaultNewProcessStackSize by decide)
    have hevents : (∀ id' < invalidWindowId, c.BuffersApart id (eventPage id')) ↔ _ := buffersApart_eventPages hpos
    have hoff : sharedDataPage.off = programSharedDataAddr ∧ sharedDataPage.stop = programSharedDataAddr + pageSize ∧
        heapRange.stop = processWindowBufferBase ∧ stackRange.off = userStackTop - defaultNewProcessStackSize ∧
        stackRange.stop = userStackTop := by decide
    rw [hoff.1,hoff.2.1] at hshared
    rw [hoff.2.2.1] at hheap
    rw [hoff.2.2.2.1,hoff.2.2.2.2] at hstack
    unfold Compositor.SlotFits
    constructor
    · intro h
      have hshared' := hshared.mp h.sharedData
      have hevents' := hevents.mp h.events
      have hstack' := hstack.mp h.stack
      have hbelow := h.below.2.1
      rw [hfront] at hbelow
      have habove : c.slotEnd id ≤ userStackTop - defaultNewProcessStackSize := by
        refine hstack'.resolve_right fun htop => ?_
        unfold userStackTop userMemMaxAddress pageSize at *
        omega
      unfold eventBufferUserVaddr programSharedDataAddr Process.eventBufferAddr processEventBufferBase pageSize invalidWindowId at *
      omega
    · intro h
      simp only [eventBufferUserVaddr,programSharedDataAddr,Process.eventBufferAddr,processEventBufferBase,pageSize,
        invalidWindowId,userStackTop,defaultNewProcessStackSize] at *
      have hbelow : c.slotEnd id ≤ userMemMaxAddress := by
        unfold userMemMaxAddress
        omega
      refine ⟨fun _ _ hne => buffersApart_buffers hne,hevents.mpr (by omega),hshared.mpr (by omega),hheap.mpr (.inr hbase),
        hstack.mpr (by omega),?_,hfront ▸ hbelow,eventPage_below hid⟩
      rw [hback]
      omega

theorem collisionFree_first : ((⟨1920,1080,0,[],[]⟩ : Compositor).CollisionFree 0) :=
  (collisionFree_iff (by decide)).mpr (by unfold Compositor.SlotFits; decide)

/-- With a 4K framebuffer the slot of the window 388 covers the shared data page. -/
theorem slot_on_sharedData : ¬∀ (c : Compositor) (id : Nat), id < invalidWindowId → c.CollisionFree id := by
  intro h
  have hshared := (h ⟨3840,2160,0,[],[]⟩ 388 (by decide)).sharedData.1
  revert hshared
  decide

end MofuOS.Graphics.Windows
