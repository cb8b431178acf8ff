import MofuOS.Graphics.WindowSystem
import MofuOS.Lib.Slots
import MofuOS.Process.NeatLayout

/-! The addresses of windows and the bookkeeping of their ids. A free id is that of a window that is not
visible, and the slots of two ids lie apart. -/
namespace MofuOS.Graphics.Windows
open Lib Memory Process

section Addresses
variable {c : Compositor} {id id' a n m β β' : Nat}

theorem dvd_maxWindowBufferBytes (c : Compositor) : pageSize ∣ c.maxWindowBufferBytes := by
  unfold Compositor.maxWindowBufferBytes
  obtain h | h := Nat.le_total (alignToPageSize (c.framebufferWidth * c.framebufferHeight * framebufferBytesPerPixel))
    processWindowBufferHardMaxSize
  · rw [Nat.min_eq_left h]
    exact Nat.dvd_mul_left ..
  · rw [Nat.min_eq_right h]
    decide

/-- Where the back and the front buffer of a window are mapped. -/
def Compositor.bases (id : Nat) (c : Compositor) : List Nat :=
  [c.windowBufferUserBase id,c.windowBufferUserBase id + c.maxWindowBufferBytes]

theorem base_cases (h : β ∈ c.bases id) :
    β = c.windowBufferUserBase id ∨ β = c.windowBufferUserBase id + c.maxWindowBufferBytes := by
  simpa [Compositor.bases] using h

theorem base_ge (h : β ∈ c.bases id) : processWindowBufferBase ≤ β := by
  unfold Compositor.bases Compositor.windowBufferUserBase at h
  simp only [List.mem_cons,List.not_mem_nil,or_false] at h
  omega

theorem dvd_base (h : β ∈ c.bases id) : pageSize ∣ β := by
  have hmax := dvd_maxWindowBufferBytes c
  have hbase : pageSize ∣ c.windowBufferUserBase id :=
    Nat.dvd_add (by decide) (Dvd.dvd.mul_left (Dvd.dvd.mul_left hmax 2) id)
  obtain rfl | rfl := base_cases h
  · exact hbase
  · exact Nat.dvd_add hbase hmax

theorem dvd_event (id : Nat) : pageSize ∣ eventBufferUserVaddr id := Nat.dvd_add (by decide) (Nat.dvd_mul_left ..)

theorem event_ge (id : Nat) : processWindowBufferBase ≤ eventBufferUserVaddr id := by
  unfold eventBufferUserVaddr processWindowBufferBase processEventBufferBase
  omega

/-- Buffers that fit their slots are apart unless they start at the same place. -/
theorem bases_apart (hβ : β ∈ c.bases id) (hβ' : β' ∈ c.bases id') (hne : id ≠ id') (hn : n ≤ c.maxWindowBufferBytes)
    (hm : m ≤ c.maxWindowBufferBytes) : β + n ≤ β' ∨ β' + m ≤ β := by
  have hslots : c.windowBufferUserBase id + 2 * c.maxWindowBufferBytes ≤ c.windowBufferUserBase id' ∨
      c.windowBufferUserBase id' + 2 * c.maxWindowBufferBytes ≤ c.windowBufferUserBase id := by
    unfold Compositor.windowBufferUserBase
    obtain hlt | hlt := Nat.lt_or_gt_of_ne hne
    · have := Nat.mul_le_mul_right (2 * c.maxWindowBufferBytes) hlt
      rw [Nat.succ_mul] at this
      omega
    · have := Nat.mul_le_mul_right (2 * c.maxWindowBufferBytes) hlt
      rw [Nat.succ_mul] at this
      omega
  obtain rfl | rfl := base_cases hβ <;> obtain rfl | rfl := base_cases hβ' <;> omega

end Addresses

section Ids
variable {c : Compositor} {window : Nat → Window} {i : Nat} {w : Window}

/-- The ids of a compositor. -/
structure Compositor.Numbered (c : Compositor) : Prop where
  next : c.nextWindowId = c.windows.length
  ids : ∀ (i : Nat) (w : Window), c.windows[i]? = some w → w.id = i
  free : ∀ id ∈ c.freeWindowIds, ∃ w, c.windows[id]? = some w ∧ w.isVisible = false
  nodup : c.freeWindowIds.Nodup

/-- The ids are a table of slots that are used again. -/
theorem Compositor.numbered_iff : c.Numbered ↔
    Slots.Numbered Window.id Window.isVisible c.nextWindowId c.freeWindowIds c.windows :=
  ⟨fun h => ⟨h.next,h.ids,h.free,h.nodup⟩,fun h => ⟨h.length,h.ids,h.unused,h.nodup⟩⟩

theorem placeWindow_eq (window : Nat → Window) (c : Compositor) : Kernel.placeWindow window c = { c with
    nextWindowId := if c.freeWindowIds = [] then c.nextWindowId + 1 else c.nextWindowId
    freeWindowIds := c.freeWindowIds.tail
    windows := Slots.put c.windows (Kernel.newWindowId c) (window (Kernel.newWindowId c)) } := by
  unfold Kernel.placeWindow Kernel.newWindowId
  cases hfree : c.freeWindowIds with
  | nil => simp [Slots.put]
  | cons id rest => simp [Slots.put]

namespace Compositor.Numbered

theorem newWindowId_le (h : c.Numbered) : Kernel.newWindowId c ≤ c.windows.length := (numbered_iff.mp h).newSlot_le

/-- The window that a new one replaces is not visible. -/
theorem replaced (h : c.Numbered) (hw : c.windows[Kernel.newWindowId c]? = some w) : w.isVisible = false :=
  (numbered_iff.mp h).replaced hw

theorem placeWindow_windows (h : c.Numbered) : (Kernel.placeWindow window c).windows[i]? =
    if i = Kernel.newWindowId c then some (window (Kernel.newWindowId c)) else c.windows[i]? := by
  rw [placeWindow_eq]
  exact Slots.getElem?_put h.newWindowId_le

theorem placeWindow (h : c.Numbered) (hid : ∀ id, (window id).id = id) : (Kernel.placeWindow window c).Numbered := by
  rw [placeWindow_eq,numbered_iff]
  exact (numbered_iff.mp h).place (hid _)

/-- Hiding a visible window frees its id. -/
theorem hide {id : Nat} {w' : Window} (h : c.Numbered) (hw : c.windows[id]? = some w) (hvisible : w.isVisible = true)
    (hid : w'.id = w.id) (hhidden : w'.isVisible = false) :
    ({ c with windows := c.windows.set id w', freeWindowIds := id :: c.freeWindowIds } : Compositor).Numbered :=
  numbered_iff.mpr ((numbered_iff.mp h).hide hw hvisible hid hhidden)

end Compositor.Numbered
end Ids
end MofuOS.Graphics.Windows
