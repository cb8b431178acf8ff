import MofuOS.Graphics.Focus
import MofuOS.Lib.Slots

/-! What the calls of the compositor do to the table of windows: a change of focus gives the windows new z indices
and touches two event buffers, and no call but the creation and the destruction of a window changes more. -/
namespace MofuOS.Graphics.Focus
open Lib Events Compose
open Memory (heapSizeBytes)
open Windows (invalidWindowId)

section MaxByKey
variable {α : Type} {key : α → Nat} {l : List α} {a : α}

theorem maxByKey_concat (l : List α) (a : α) : maxByKey key (l ++ [a]) =
    match maxByKey key l with
    | none => some a
    | some b => if key b ≤ key a then some a else some b := by
  rw [maxByKey,List.foldl_append]
  rfl

theorem maxByKey_spec (key : α → Nat) (l : List α) : maxByKey key l = none ∧ l = [] ∨
    ∃ a ∈ l, maxByKey key l = some a ∧ ∀ b ∈ l, key b ≤ key a := by
  induction l using List.reverseRecOn with
  | nil => exact .inl ⟨rfl,rfl⟩
  | append_singleton l a ih =>
    refine .inr ?_
    rw [maxByKey_concat]
    obtain ⟨hnone,rfl⟩ | ⟨b,hb,hmax,hle⟩ := ih
    · exact ⟨a,by simp,by rw [hnone],by simp⟩
    · simp only [hmax]
      split_ifs with hba
      · refine ⟨a,by simp,rfl,fun b' hb' => ?_⟩
        obtain hb' | hb' := List.mem_append.mp hb'
        · exact Nat.le_trans (hle b' hb') hba
        · rw [List.mem_singleton.mp hb']
      · refine ⟨b,by simp [hb],rfl,fun b' hb' => ?_⟩
        obtain hb' | hb' := List.mem_append.mp hb'
        · exact hle b' hb'
        · rw [List.mem_singleton.mp hb']
          exact Nat.le_of_lt (Nat.not_le.mp hba)

theorem maxByKey_mem (h : maxByKey key l = some a) : a ∈ l ∧ ∀ b ∈ l, key b ≤ key a := by
  obtain ⟨hnone,_⟩ | ⟨b,hb,hmax,hle⟩ := maxByKey_spec key l
  · rw [hnone] at h
    cases h
  · rw [hmax] at h
    cases h
    exact ⟨hb,hle⟩

theorem maxByKey_eq_none : maxByKey key l = none ↔ l = [] := by
  obtain ⟨hnone,hl⟩ | ⟨b,hb,hmax,_⟩ := maxByKey_spec key l
  · exact ⟨fun _ => hl,fun _ => hnone⟩
  · rw [hmax]
    exact ⟨nofun,fun hl => by rw [hl] at hb; cases hb⟩

end MaxByKey

variable {fb : FrameBufferTarget} {p : Profile} {c c' : Compositor fb} {windows : List (Window fb)} {w : Window fb}
  {id i : Nat} {call : EventPage → Outcome EventPage}

/-- The page that a call leaves. -/
def left (call : EventPage → Outcome EventPage) (page : EventPage) : EventPage := (call page).toOption.getD page

theorem left_of_ok {page page' : EventPage} (h : call page = .ok page') : left call page = page' := by
  rw [left,h]
  rfl

/-- A window with its event buffer changed. -/
def Window.onBuffer (f : EventPage → EventPage) (w : Window fb) : Window fb := { w with eventBuffer := w.eventBuffer.map f }

/-- The ring of every event buffer is in order. -/
def Rings (windows : List (Window fb)) : Prop := ∀ (i : Nat) (w : Window fb) (page : EventPage),
  windows[i]? = some w → w.eventBuffer = some page → ∃ q, page.buffer.Holds q

section OnEventBuffer

theorem onEventBuffer_eq (hcall : ∀ w page, windows[id]? = some w → w.eventBuffer = some page → ∃ page', call page = .ok page') :
    onEventBuffer id call windows = .ok (windows.modify id (Window.onBuffer (left call))) := by
  unfold onEventBuffer
  cases hw : windows[id]? with
  | none => rw [List.modify_eq_self (List.getElem?_eq_none_iff.mp hw)]
  | some w =>
    obtain ⟨hlt,rfl⟩ := List.getElem?_eq_some_iff.mp hw
    have hset : windows.modify id (Window.onBuffer (left call)) = windows.set id (windows[id].onBuffer (left call)) := by
      refine List.ext_getElem? fun j => ?_
      rw [List.getElem?_modify,List.getElem?_set]
      by_cases hj : id = j
      · subst hj
        simp [hlt]
      · simp [hj]
    rw [Option.bind_some,hset]
    cases hpage : windows[id].eventBuffer with
    | none =>
      have hsame : windows[id].onBuffer (left call) = windows[id] := by
        unfold Window.onBuffer
        rw [hpage,Option.map_none,← hpage]
      rw [hsame,List.set_getElem_self]
    | some page =>
      obtain ⟨page',hpage'⟩ := hcall _ page hw hpage
      simp only [hpage',ok_bind,Window.onBuffer,hpage,Option.map_some,left,Except.toOption,Option.getD_some]

theorem onFocused_eq (hcall : ∀ w page, c.windows[c.currentlyFocusedWindow]? = some w → w.eventBuffer = some page →
      ∃ page', call page = .ok page') (hinvalid : c.windows.length ≤ invalidWindowId) :
    c.onFocused call =
      .ok { c with windows := c.windows.modify c.currentlyFocusedWindow (Window.onBuffer (left call)) } := by
  unfold Compositor.onFocused
  split_ifs with hfocus
  · rw [List.modify_eq_self (by omega)]
  · rw [onEventBuffer_eq hcall]
    rfl

end OnEventBuffer
section Restack

/-- The windows with one of them raised over the topmost z_index. -/
def raised (id top : Nat) (windows : List (Window fb)) : List (Window fb) :=
  windows.modify id fun w => { w with zIndex := (top + 1) % 2^8 }

/-- The windows as a change of focus stacks them. -/
def restacked (id top : Nat) (windows : List (Window fb)) : List (Window fb) :=
  if top > normalizeZIndexThreshold then normalizeZIndices (raised id top windows) else raised id top windows

def restackedZIndex (id top : Nat) (windows : List (Window fb)) (slot : Nat) (w : Window fb) : Nat :=
  if top > normalizeZIndexThreshold ∧ w.isVisible = true then (stackingOrder (raised id top windows)).idxOf slot % 2^8
  else if slot = id then (top + 1) % 2^8 else w.zIndex

theorem getElem?_raised {top : Nat} : (raised id top windows)[i]? =
    (windows[i]?).map fun w => { w with zIndex := if i = id then (top + 1) % 2^8 else w.zIndex } := by
  rw [raised,List.getElem?_modify]
  cases windows[i]? with
  | none => rfl
  | some w =>
    by_cases hi : id = i
    · subst hi
      simp
    · simp [hi,Ne.symm hi]

theorem getElem?_restacked {top : Nat} : (restacked id top windows)[i]? =
    (windows[i]?).map fun w => { w with zIndex := restackedZIndex id top windows i w } := by
  unfold restacked restackedZIndex
  by_cases htop : top > normalizeZIndexThreshold
  · rw [if_pos htop,normalizeZIndices,List.getElem?_mapIdx,getElem?_raised]
    cases windows[i]? with
    | none => rfl
    | some w => cases hw : w.isVisible <;> simp [htop,hw]
  · rw [if_neg htop,getElem?_raised]
    simp [htop]

theorem length_restacked {top : Nat} : (restacked id top windows).length = windows.length := by
  unfold restacked normalizeZIndices raised
  split_ifs <;> simp

end Restack

/-- The compositor when the focus has moved. -/
def Compositor.refocused (id top : Nat) (c : Compositor fb) : Compositor fb := { c with
  windows := ((restacked id top c.windows).modify c.currentlyFocusedWindow
    (Window.onBuffer (left (·.releaseHeldKeys c.keyboardState)))).modify id
    (Window.onBuffer fun page => page.publishKeyboardState c.keyboardState.keyDown c.keyboardState.modifiers)
  currentlyFocusedWindow := id
  sharedFocusedWindowId := id }

/-- What a change of focus does to the event buffer of a window. -/
def Compositor.handover (id : Nat) (c : Compositor fb) (slot : Nat) (page : EventPage) : EventPage :=
  if slot = id then page.publishKeyboardState c.keyboardState.keyDown c.keyboardState.modifiers
  else if slot = c.currentlyFocusedWindow then left (·.releaseHeldKeys c.keyboardState) page
  else page

theorem getElem?_refocused {top : Nat} (hne : id ≠ c.currentlyFocusedWindow) : (c.refocused id top).windows[i]? =
    (c.windows[i]?).map fun w => { w with
      zIndex := restackedZIndex id top c.windows i w
      eventBuffer := w.eventBuffer.map (c.handover id i) } := by
  unfold Compositor.refocused Compositor.handover
  rw [List.getElem?_modify,List.getElem?_modify,getElem?_restacked]
  cases c.windows[i]? with
  | none => rfl
  | some w =>
    by_cases hi : id = i
    · subst hi
      simp [Ne.symm hne,Window.onBuffer]
    · by_cases hfocus : c.currentlyFocusedWindow = i
      · simp [hi,Ne.symm hi,hfocus,Window.onBuffer]
      · simp [hi,Ne.symm hi,hfocus,Ne.symm hfocus]

/-- How focus_window ends. -/
inductive Compositor.Focusing (p : Profile) (id : Nat) (c : Compositor fb) : Outcome (Compositor fb) → Prop where
  | same (h : id = invalidWindowId ∨ id = c.currentlyFocusedWindow) : Focusing p id c (.ok c)
  | empty (hmove : id ≠ invalidWindowId ∧ id ≠ c.currentlyFocusedWindow) (h : c.windows = []) : Focusing p id c (.error .panic)
  | missing (hmove : id ≠ invalidWindowId ∧ id ≠ c.currentlyFocusedWindow) (hne : c.windows ≠ []) (h : c.windows[id]? = none) :
    Focusing p id c (.ok c)
  | overflow (top w : Window fb) (hmove : id ≠ invalidWindowId ∧ id ≠ c.currentlyFocusedWindow)
      (htop : maxByKey (·.zIndex) c.windows = some top) (hw : c.windows[id]? = some w) (hp : p.checks = true)
      (h : 2^8 ≤ top.zIndex + 1) : Focusing p id c (.error .panic)
  | moved (top w : Window fb) (hmove : id ≠ invalidWindowId ∧ id ≠ c.currentlyFocusedWindow)
      (htop : maxByKey (·.zIndex) c.windows = some top) (hw : c.windows[id]? = some w)
      (h : p.checks = true → top.zIndex + 1 < 2^8) : Focusing p id c (.ok (c.refocused id top.zIndex))

theorem focusWindow_focusing (p : Profile) (id : Nat) (hrings : Rings c.windows) : c.Focusing p id (c.focusWindow p id) := by
  unfold Compositor.focusWindow
  by_cases hsame : id = invalidWindowId ∨ id = c.currentlyFocusedWindow
  · rw [if_pos hsame]
    exact .same hsame
  rw [if_neg hsame]
  push Not at hsame
  cases htop : maxByKey (fun w : Window fb => w.zIndex) c.windows with
  | none => exact .empty hsame (maxByKey_eq_none.mp htop)
  | some top =>
    cases hw : c.windows[id]? with
    | none =>
      refine .missing hsame (fun hempty => ?_) hw
      rw [maxByKey_eq_none.mpr hempty] at htop
      cases htop
    | some w =>
      dsimp only
      rw [← Nat.cast_one,← Nat.cast_add,unsigned_natCast]
      by_cases hover : p.checks = true ∧ 2^8 ≤ top.zIndex + 1
      · rw [if_pos hover]
        exact .overflow top w hsame htop hw hover.1 hover.2
      rw [if_neg hover,ok_bind]
      have hraised : c.windows.set id { w with zIndex := (top.zIndex + 1) % 2^8 } = raised id top.zIndex c.windows := by
        refine List.ext_getElem? fun j => ?_
        obtain ⟨hlt,rfl⟩ := List.getElem?_eq_some_iff.mp hw
        rw [getElem?_raised,List.getElem?_set]
        by_cases hj : id = j
        · subst hj
          simp [hlt]
        · simp only [if_neg hj,if_neg (Ne.symm hj),Option.map_id']
      have hrestacked : (if top.zIndex > normalizeZIndexThreshold then
          normalizeZIndices (c.windows.set id { w with zIndex := (top.zIndex + 1) % 2^8 })
          else c.windows.set id { w with zIndex := (top.zIndex + 1) % 2^8 }) = restacked id top.zIndex c.windows := by
        rw [hraised]
        rfl
      rw [hrestacked,onEventBuffer_eq fun u page hu hpage => ?_,ok_bind,onEventBuffer_eq fun _ page _ _ => ⟨_,rfl⟩,ok_bind]
      · exact .moved top w hsame htop hw fun hp => Nat.not_le.mp fun hle => hover ⟨hp,hle⟩
      · rw [getElem?_restacked] at hu
        obtain ⟨v,hv,rfl⟩ := Option.map_eq_some_iff.mp hu
        obtain ⟨q,hq⟩ := hrings _ v page hv hpage
        obtain ⟨page',hpage',_⟩ := page.releaseHeldKeys_holds (k := c.keyboardState) hq
        exact ⟨page',hpage'⟩

section Consistent

/-- What holds of the compositor between its calls. -/
structure Compositor.Consistent (c : Compositor fb) : Prop where
  slots : Slots.Numbered (fun w : Window fb => w.id) (fun w => w.isVisible) c.nextWindowId c.freeWindowIds c.windows
  small : c.windows.length ≤ heapSizeBytes
  hidden : ∀ (i : Nat) (w : Window fb), c.windows[i]? = some w → w.isVisible = false → w.eventBuffer = none
  rings : Rings c.windows
  zIndices : ∀ (i : Nat) (w : Window fb), c.windows[i]? = some w → w.zIndex < 2^8

/-- Windows that differ in their z indices and in what their event buffers hold. -/
structure Restyled (windows windows' : List (Window fb)) : Prop where
  length : windows'.length = windows.length
  same : ∀ (i : Nat) (w : Window fb), windows[i]? = some w → ∃ z b, windows'[i]? = some { w with zIndex := z, eventBuffer := b } ∧
    z < 2^8 ∧ b.isSome = w.eventBuffer.isSome ∧ ∀ page, b = some page → ∃ q, page.buffer.Holds q

/-- A call that keeps the rings of event buffers in order. -/
def Keeps (f : EventPage → EventPage) : Prop := ∀ page q, page.buffer.Holds q → ∃ q', (f page).buffer.Holds q'

theorem keeps_publish (keyDown : KeyBitset) (modifiers : UInt32) :
    Keeps fun page => page.publishKeyboardState keyDown modifiers := fun _ q h => ⟨q,h⟩

theorem keeps_release (k : KeyboardState) : Keeps (left (·.releaseHeldKeys k)) := by
  intro page q h
  obtain ⟨page',hrelease,hholds,_⟩ := page.releaseHeldKeys_holds (k := k) h
  exact ⟨_,(left_of_ok hrelease).symm ▸ hholds⟩

theorem keeps_tryRead : Keeps fun page => { page with buffer := page.buffer.tryRead.2 } := fun _ _ h => ⟨_,h.tryRead.2⟩

namespace Restyled
variable {windows' windows'' : List (Window fb)}

theorem trans (h : Restyled windows windows') (h' : Restyled windows' windows'') : Restyled windows windows'' := by
  refine ⟨h'.length.trans h.length,fun i w hw => ?_⟩
  obtain ⟨z,b,hwindow,_,hsome,_⟩ := h.same i w hw
  obtain ⟨z',b',hwindow',hz,hsome',hholds⟩ := h'.same i _ hwindow
  exact ⟨z',b',hwindow',hz,hsome'.trans hsome,hholds⟩

variable (hrings : Rings windows) (hzIndices : ∀ (i : Nat) (w : Window fb), windows[i]? = some w → w.zIndex < 2^8)
include hrings hzIndices

theorem onBuffer {f : EventPage → EventPage} (hf : Keeps f) (slot : Nat) :
    Restyled windows (windows.modify slot (Window.onBuffer f)) := by
  refine ⟨List.length_modify ..,fun i w hw => ?_⟩
  rw [List.getElem?_modify,hw]
  by_cases hi : slot = i
  · refine ⟨w.zIndex,w.eventBuffer.map f,by simp [hi,Window.onBuffer],hzIndices i w hw,Option.isSome_map,fun page hpage => ?_⟩
    obtain ⟨old,hold,rfl⟩ := Option.map_eq_some_iff.mp hpage
    obtain ⟨q,hq⟩ := hrings i w old hw hold
    exact hf old q hq
  · exact ⟨w.zIndex,w.eventBuffer,by simp [hi],hzIndices i w hw,rfl,fun page hpage => hrings i w page hw hpage⟩

theorem stacked {slot zIndex : Nat} (hz : zIndex < 2^8) : Restyled windows (windows.modify slot fun w => { w with zIndex }) := by
  refine ⟨List.length_modify ..,fun i w hw => ?_⟩
  rw [List.getElem?_modify,hw]
  by_cases hi : slot = i
  · exact ⟨zIndex,w.eventBuffer,by simp [hi],hz,rfl,fun page hpage => hrings i w page hw hpage⟩
  · exact ⟨w.zIndex,w.eventBuffer,by simp [hi],hzIndices i w hw,rfl,fun page hpage => hrings i w page hw hpage⟩

theorem restacked (id top : Nat) : Restyled windows (restacked id top windows) := by
  refine ⟨length_restacked,fun i w hw => ?_⟩
  rw [getElem?_restacked,hw]
  refine ⟨_,w.eventBuffer,rfl,?_,rfl,fun page hpage => hrings i w page hw hpage⟩
  unfold restackedZIndex
  split_ifs
  · exact Nat.mod_lt _ (by decide)
  · exact Nat.mod_lt _ (by decide)
  · exact hzIndices i w hw

omit hrings hzIndices in
theorem rings (h : Restyled windows windows') : Rings windows' := by
  intro i w' page hw' hpage
  have hlt := (List.getElem?_eq_some_iff.mp hw').1
  obtain ⟨z,b,hwindow,_,_,hholds⟩ := h.same i _ (List.getElem?_eq_getElem (h.length ▸ hlt))
  cases hw'.symm.trans hwindow
  exact hholds page hpage

omit hrings hzIndices in
theorem zIndices (h : Restyled windows windows') (i : Nat) (w' : Window fb) (hw' : windows'[i]? = some w') :
    w'.zIndex < 2^8 := by
  have hlt := (List.getElem?_eq_some_iff.mp hw').1
  obtain ⟨z,b,hwindow,hz,_⟩ := h.same i _ (List.getElem?_eq_getElem (h.length ▸ hlt))
  cases hw'.symm.trans hwindow
  exact hz

end Restyled

namespace Compositor.Consistent

theorem restyled (h : c.Consistent) (hnext : c'.nextWindowId = c.nextWindowId) (hfree : c'.freeWindowIds = c.freeWindowIds)
    (hwindows : Restyled c.windows c'.windows) : c'.Consistent := by
  refine ⟨?_,hwindows.length ▸ h.small,fun i w' hw' hhidden => ?_,hwindows.rings,hwindows.zIndices⟩
  · rw [hnext,hfree]
    refine h.slots.congr hwindows.length fun i w hw => ?_
    obtain ⟨z,b,hwindow,_⟩ := hwindows.same i w hw
    exact ⟨_,hwindow,rfl,rfl⟩
  · have hlt := (List.getElem?_eq_some_iff.mp hw').1
    have hw := List.getElem?_eq_getElem (hwindows.length ▸ hlt)
    obtain ⟨z,b,hwindow,_,hsome,_⟩ := hwindows.same i _ hw
    cases hw'.symm.trans hwindow
    rw [h.hidden i _ hw hhidden] at hsome
    exact Option.not_isSome_iff_eq_none.mp (by rw [hsome]; decide)

theorem length_le (h : c.Consistent) : c.windows.length ≤ invalidWindowId := Nat.le_trans h.small (by decide)

/-- No window has the invalid id. -/
theorem window_ne (h : c.Consistent) (hw : c.windows[i]? = some w) : i ≠ invalidWindowId := by
  have hlt := (List.getElem?_eq_some_iff.mp hw).1
  have hle := h.length_le
  omega

theorem restyled_refocused (h : c.Consistent) (id top : Nat) : Restyled c.windows (c.refocused id top).windows := by
  have hstack := Restyled.restacked h.rings h.zIndices id top
  have hrelease := Restyled.onBuffer hstack.rings hstack.zIndices (keeps_release c.keyboardState) c.currentlyFocusedWindow
  have hpublish := Restyled.onBuffer hrelease.rings hrelease.zIndices
    (keeps_publish c.keyboardState.keyDown c.keyboardState.modifiers) id
  exact (hstack.trans hrelease).trans hpublish

theorem refocused (h : c.Consistent) (id top : Nat) : (c.refocused id top).Consistent :=
  h.restyled rfl rfl (h.restyled_refocused id top)

theorem focusWindow (h : c.Consistent) (hrun : c.focusWindow p id = .ok c') : c'.Consistent := by
  have hfocusing := focusWindow_focusing p id h.rings
  rw [hrun] at hfocusing
  cases hfocusing with
  | same => exact h
  | missing => exact h
  | moved => exact h.refocused _ _

end Compositor.Consistent
end Consistent
end MofuOS.Graphics.Focus
