import MofuOS.Graphics.Stacking

/-! The focused window is on top as long as there is a height above the others, and a new window finds those that are
visible below the one that CreateWindow gives it. -/
namespace MofuOS.Graphics.Focus
open Lib Events Compose
open Memory (heapSizeBytes)
open Windows (invalidWindowId)
variable {fb : FrameBufferTarget} {p : Profile} {keys : KeyCodes} {c c' c₁ : Compositor fb} {windows : List (Window fb)}
  {id i j z z' : Nat}

section Property

/-- The topmost z_index that a call of focus_window finds, if it comes to raise a window. -/
def Compositor.raisedOver (id : Nat) (c : Compositor fb) : Option Nat :=
  if id = invalidWindowId ∨ id = c.currentlyFocusedWindow then none
  else (maxByKey (·.zIndex) c.windows).bind fun top => (c.windows[id]?).map fun _ => top.zIndex

/-- What a call of focus_window computes for u8. -/
def Compositor.computedZIndices (id : Nat) (c : Compositor fb) : List Nat :=
  (c.raisedOver id).elim [] fun top =>
    (top + 1) :: if top > normalizeZIndexThreshold then List.range (c.windows.countP (·.isVisible)) else []

/-- The call of focus_window that an action makes, and the compositor that it finds. -/
def Action.focusing (p : Profile) (keys : KeyCodes) (a : Action) (c : Compositor fb) : Option (Nat × Compositor fb) :=
  match a with
  | .createWindow pid x y width height room page =>
    if h : Accepted fb width height then
      if room = true ∧ c.windows.length < heapSizeBytes then
        some (c.newWindowId,c.placed ⟨x,y,width,height,true,h.1,h.2⟩ pid page)
      else none
    else none
  | .focusWindow id => some (id,c)
  | .input event =>
    match c.aim p keys event with
    | .ok (_,_,some id) => some (id,c)
    | _ => none
  | _ => none

def NoOverflow (p : Profile) (keys : KeyCodes) (a : Action) (c : Compositor fb) : Prop :=
  ∀ call, a.focusing p keys c = some call → ∀ z ∈ call.2.computedZIndices call.1, z < 2^8

/-- The focused window, if it is visible, is above every other one. -/
def OnTop (c : Compositor fb) : Prop := ∀ z, Shown c.windows c.currentlyFocusedWindow z →
  ∀ i z', i ≠ c.currentlyFocusedWindow → Shown c.windows i z' → z' < z

/-- The windows that are visible and do not have the focus stay in their order. -/
def KeepsOrder (c c' : Compositor fb) : Prop := ∀ i j, i ≠ c'.currentlyFocusedWindow → j ≠ c'.currentlyFocusedWindow →
  ∀ zi zj zi' zj', Shown c.windows i zi → Shown c.windows j zj → Shown c'.windows i zi' → Shown c'.windows j zj' →
    (zi < zj ↔ zi' < zj')

end Property
section Condition

/-- The call raises no window, or there is a height above all of them. -/
def MayRaise (id : Nat) (c : Compositor fb) : Prop :=
  id = invalidWindowId ∨ id = c.currentlyFocusedWindow ∨ c.windows[id]? = none ∨ ∀ w ∈ c.windows, w.zIndex + 1 < 2^8

/-- The windows that a new one does not replace. -/
def Compositor.others (c : Compositor fb) : List (Window fb) := c.windows.filter fun w => w.id != c.newWindowId

/-- The visible windows are below 7. -/
def Compositor.Low (c : Compositor fb) : Prop := ∀ w ∈ c.windows, w.isVisible = true → w.zIndex < 7

/-- The visible windows will be below a new one. -/
def Compositor.MayCreate (c : Compositor fb) : Prop :=
  if c.newWindowId = c.currentlyFocusedWindow then c.Low
  else (∀ w ∈ c.others, w.zIndex + 1 < 2^8) ∧
    ((∃ w ∈ c.others, w.zIndex > normalizeZIndexThreshold) → c.windows.countP (·.isVisible) ≤ 7) ∧
    ((∀ w ∈ c.others, w.zIndex ≤ normalizeZIndexThreshold) → c.Low)

/-- The step leaves the focused window on top. -/
def KeepsOnTop (p : Profile) (keys : KeyCodes) (a : Action) (c : Compositor fb) : Prop :=
  match a with
  | .createWindow _ _ _ width height room _ => Accepted fb width height → room = true ∧ c.windows.length < heapSizeBytes → c.MayCreate
  | .focusWindow id => MayRaise id c
  | .input input => ∀ mouseX mouseY id, c.aim p keys input = .ok (mouseX,mouseY,some id) → MayRaise id c
  | _ => True

end Condition
section Restacks

/-- Between the steps: no two visible windows are at one height, and the focused one is on top. -/
structure Compositor.Stacked (c : Compositor fb) : Prop where
  consistent : c.Consistent
  apart : Apart c.windows
  onTop : OnTop c

/-- A step leaves the windows apart, the focused one on top and the others in their order. -/
structure Restacks (c c' : Compositor fb) : Prop where
  apart : Apart c'.windows
  onTop : OnTop c'
  order : KeepsOrder c c'

/-- A step that at most hides windows. -/
theorem Restacks.of_shown (h : c.Stacked) (hfocus : c'.currentlyFocusedWindow = c.currentlyFocusedWindow)
    (hshown : ∀ i z, Shown c'.windows i z → Shown c.windows i z) : Restacks c c' := by
  refine ⟨fun i j z hi hj => h.apart i j z (hshown i z hi) (hshown j z hj),fun z hz i z' hi hz' => ?_,?_⟩
  · rw [hfocus] at hz hi
    exact h.onTop z (hshown _ z hz) i z' hi (hshown i z' hz')
  · intro i j _ _ zi zj zi' zj' hi hj hi' hj'
    rw [hi.unique (hshown i zi' hi'),hj.unique (hshown j zj' hj')]

theorem Restacks.hide (h : c.Stacked) (hidden : Nat → Window fb → Prop) [∀ i w, Decidable (hidden i w)]
    (hfocus : c'.currentlyFocusedWindow = c.currentlyFocusedWindow)
    (hwindows : ∀ i : Nat, c'.windows[i]? = (c.windows[i]?).map fun w => if hidden i w then w.hide else w) : Restacks c c' := by
  refine .of_shown h hfocus fun i z hshown => ?_
  obtain ⟨u,hu,hvisible,rfl⟩ := hshown
  rw [hwindows] at hu
  obtain ⟨w,hw,rfl⟩ := Option.map_eq_some_iff.mp hu
  split_ifs at hvisible ⊢
  · cases hvisible
  · exact ⟨w,hw,hvisible,rfl⟩

theorem shown_onBuffer {f : EventPage → EventPage} : Shown (windows.modify id (Window.onBuffer f)) i z ↔ Shown windows i z := by
  unfold Shown
  rw [List.getElem?_modify]
  cases windows[i]? with
  | none => rfl
  | some w =>
    by_cases hi : id = i
    · constructor
      · rintro ⟨u,hu,hvisible,hz⟩
        cases hu
        dsimp only at hvisible hz
        rw [if_pos hi] at hvisible hz
        exact ⟨w,rfl,hvisible,hz⟩
      · rintro ⟨u,hu,hvisible,hz⟩
        cases hu
        exact ⟨w.onBuffer f,congrArg some (if_pos hi),hvisible,hz⟩
    · simp only [if_neg hi,Option.map_eq_map,Option.map_id']

theorem Restacks.delivered (h : Restacks c c₁) (input : Input) : Restacks c (c₁.delivered input) := by
  have hshown : ∀ i z, Shown (c₁.delivered input).windows i z ↔ Shown c₁.windows i z := fun i z => shown_onBuffer
  have hfocus : (c₁.delivered input).currentlyFocusedWindow = c₁.currentlyFocusedWindow := (deliver_rest input c₁).2.1
  refine ⟨fun i j z hi hj => h.apart i j z ((hshown i z).mp hi) ((hshown j z).mp hj),?_,?_⟩
  · unfold OnTop
    simp only [hfocus,hshown]
    exact h.onTop
  · unfold KeepsOrder
    simp only [hfocus,hshown]
    exact h.order

theorem shown_refocused {top : Nat} : Shown (c.refocused id top).windows i z ↔ Shown (restacked id top c.windows) i z :=
  shown_onBuffer.trans shown_onBuffer

theorem shown_le {top : Window fb} (htop : maxByKey (·.zIndex) windows = some top) (h : Shown windows i z) : z ≤ top.zIndex := by
  obtain ⟨w,hw,_,rfl⟩ := h
  exact (maxByKey_mem htop).2 w (List.mem_of_getElem? hw)

/-- A window raised over all others takes the focus with it. -/
theorem Raisable.restacks {top : Nat} (h : Raisable id top c.windows) : Restacks c (c.refocused id top) := by
  refine ⟨fun i j z hi hj => h.apart_restacked i j z (shown_refocused.mp hi) (shown_refocused.mp hj),
    fun z hz i z' hi hz' => h.restacked_lt (shown_refocused.mp hz) (shown_refocused.mp hz') hi,?_⟩
  intro i j hi hj zi zj zi' zj' hzi hzj hzi' hzj'
  exact h.restacked_others hi hj hzi hzj (shown_refocused.mp hzi') (shown_refocused.mp hzj')

theorem Compositor.Stacked.raisable (h : c.Stacked) {top : Window fb} (htop : maxByKey (·.zIndex) c.windows = some top)
    (hfits : top.zIndex + 1 < 2^8) : Raisable id top.zIndex c.windows :=
  ⟨fun i j z _ _ => h.apart i j z,fun _ _ => shown_le htop,hfits⟩

end Restacks
section Focus

theorem countP_raised (id top : Nat) (windows : List (Window fb)) : (raised id top windows).countP (·.isVisible) = windows.countP (·.isVisible) := by
  have hslots : visibleSlots (raised id top windows) = visibleSlots windows := by
    unfold visibleSlots
    rw [raised,List.length_modify]
    refine List.filter_congr fun slot _ => ?_
    rw [← raised,getElem?_raised]
    cases windows[slot]? <;> rfl
  rw [← length_visibleSlots,hslots,length_visibleSlots]

theorem Raisable.countP_le {top : Nat} (h : Raisable id top windows) : windows.countP (·.isVisible) ≤ 2^8 :=
  countP_raised id top windows ▸ h.apart_raised.countP_le h.lt

/-- A call overflows only by raising a window over the last height. -/
theorem computed_lt_iff (hraisable : ∀ top : Window fb, maxByKey (·.zIndex) c.windows = some top → top.zIndex + 1 < 2^8 →
      Raisable id top.zIndex c.windows) : (∀ z ∈ c.computedZIndices id, z < 2^8) ↔
    ∀ top : Window fb, id ≠ invalidWindowId ∧ id ≠ c.currentlyFocusedWindow → maxByKey (·.zIndex) c.windows = some top →
      c.windows[id]? ≠ none → top.zIndex + 1 < 2^8 := by
  unfold Compositor.computedZIndices Compositor.raisedOver
  by_cases hsame : id = invalidWindowId ∨ id = c.currentlyFocusedWindow
  · rw [if_pos hsame]
    exact ⟨fun _ top hmove => absurd hsame (not_or.mpr hmove),fun _ => nofun⟩
  rw [if_neg hsame]
  cases htop : maxByKey (fun w : Window fb => w.zIndex) c.windows with
  | none => exact ⟨fun _ => nofun,fun _ => nofun⟩
  | some top =>
    cases hw : c.windows[id]? with
    | none => exact ⟨fun _ _ _ _ hne => absurd rfl hne,fun _ => nofun⟩
    | some w =>
      refine ⟨fun hlt top' _ htop' _ => ?_,fun hfits z hz => ?_⟩
      · cases htop'
        exact hlt _ List.mem_cons_self
      · have hroom := hfits top (not_or.mp hsame) rfl nofun
        obtain rfl | hz := List.mem_cons.mp hz
        · exact hroom
        · split_ifs at hz
          · exact Nat.lt_of_lt_of_le (List.mem_range.mp hz) (hraisable top htop hroom).countP_le
          · cases hz

theorem mayRaise_iff : MayRaise id c ↔ ∀ top : Window fb, id ≠ invalidWindowId ∧ id ≠ c.currentlyFocusedWindow →
    maxByKey (·.zIndex) c.windows = some top → c.windows[id]? ≠ none → top.zIndex + 1 < 2^8 := by
  constructor
  · rintro (h | h | h | h) top hmove htop hne
    · exact absurd h hmove.1
    · exact absurd h hmove.2
    · exact absurd h hne
    · exact h top (maxByKey_mem htop).1
  · intro h
    by_cases hinvalid : id = invalidWindowId
    · exact .inl hinvalid
    by_cases hfocus : id = c.currentlyFocusedWindow
    · exact .inr (.inl hfocus)
    by_cases hnone : c.windows[id]? = none
    · exact .inr (.inr (.inl hnone))
    refine .inr (.inr (.inr fun w hw => ?_))
    cases htop : maxByKey (fun w : Window fb => w.zIndex) c.windows with
    | none =>
      rw [maxByKey_eq_none.mp htop] at hw
      cases hw
    | some top =>
      have hfits := h top ⟨hinvalid,hfocus⟩ htop hnone
      have hle := (maxByKey_mem htop).2 w hw
      omega

/-- A change of focus overflows nothing exactly when it may be made. -/
theorem Compositor.Stacked.mayRaise_iff (h : c.Stacked) : MayRaise id c ↔ ∀ z ∈ c.computedZIndices id, z < 2^8 :=
  Focus.mayRaise_iff.trans (computed_lt_iff fun _ => h.raisable).symm

theorem Compositor.Stacked.focusWindow (h : c.Stacked) (hmay : MayRaise id c) (hrun : c.focusWindow p id = .ok c') :
    Restacks c c' := by
  have hfocusing := focusWindow_focusing p id h.consistent.rings
  rw [hrun] at hfocusing
  cases hfocusing with
  | same => exact .of_shown h rfl fun _ _ hshown => hshown
  | missing => exact .of_shown h rfl fun _ _ hshown => hshown
  | moved top w hmove htop hw =>
    have hfits := Focus.mayRaise_iff.mp hmay top hmove htop (by rw [hw]; nofun)
    exact (h.raisable htop hfits).restacks

end Focus
section Create

/-- Numbered again, the other windows are below 7 when there are not more than seven of them. -/
theorem Raisable.restacked_low_iff {top : Nat} (h : Raisable id top windows) (hid : ∃ z, Shown windows id z)
    (htop : top > normalizeZIndexThreshold) :
    (∀ i z, i ≠ id → Shown (restacked id top windows) i z → z < 7) ↔ windows.countP (·.isVisible) ≤ 8 := by
  have hshown : ∀ i z, Shown (restacked id top windows) i z ↔ (∃ z, Shown (raised id top windows) i z) ∧
      z = rank (zIndexAt (raised id top windows)) (visibleSlots (raised id top windows)) i := by
    intro i z
    rw [restacked,if_pos htop]
    exact shown_normalizeZIndices h.apart_raised h.lt
  have hlength : (visibleSlots (raised id top windows)).length = windows.countP (·.isVisible) := by
    rw [length_visibleSlots,countP_raised]
  rw [← hlength]
  constructor
  · intro hlow
    refine Nat.not_lt.mp fun hmany => ?_
    -- one of the places 7 and 8 is not that of the raised window
    obtain ⟨a,ha,hrankA⟩ := exists_rank (zIndexAt (raised id top windows)) nodup_visibleSlots (Nat.lt_of_succ_lt hmany)
    obtain ⟨b,hb,hrankB⟩ := exists_rank (zIndexAt (raised id top windows)) nodup_visibleSlots hmany
    by_cases haid : a = id
    · have hbid : b ≠ id := by
        rintro rfl
        rw [haid,hrankB] at hrankA
        cases hrankA
      have hlt := hlow b _ hbid ((hshown b _).mpr ⟨mem_visibleSlots.mp hb,rfl⟩)
      omega
    · have hlt := hlow a _ haid ((hshown a _).mpr ⟨mem_visibleSlots.mp ha,rfl⟩)
      omega
  · intro hfew i z hne hz
    have hidRaised : ∃ z, Shown (raised id top windows) id z := ⟨top + 1,(shown_raised h.fits).mpr (by rw [if_pos rfl]; exact ⟨hid,rfl⟩)⟩
    have hbelow := h.restacked_lt ((hshown id _).mpr ⟨hidRaised,rfl⟩) hz hne
    have hrank := rank_lt_length (zIndexAt (raised id top windows)) (mem_visibleSlots.mpr hidRaised)
    omega

variable {shape : PlacedWindow fb} {pid : Nat} {page : Bool} {w : Window fb}

theorem shown_placed (h : c.Consistent) : Shown (c.placed shape pid page).windows i z ↔
    if i = c.newWindowId then z = 0 else Shown c.windows i z := by
  unfold Shown
  rw [getElem?_placed h]
  split_ifs with hi
  · constructor
    · rintro ⟨w,hw,_,rfl⟩
      cases hw
      rfl
    · rintro rfl
      exact ⟨_,rfl,rfl,rfl⟩
  · rfl

theorem shown_new (h : c.Consistent) : Shown (c.placed shape pid page).windows c.newWindowId 0 :=
  (shown_placed h).mpr (by rw [if_pos rfl])

theorem countP_placed (h : c.Consistent) :
    (c.placed shape pid page).windows.countP (·.isVisible) = c.windows.countP (·.isVisible) + 1 :=
  Slots.countP_put fun _ hw => hidden_of_newWindowId h hw

theorem low_iff (h : c.Consistent) : (∀ i z, i ≠ c.newWindowId → Shown c.windows i z → z < 7) ↔ c.Low := by
  constructor
  · intro hlow w hw hvisible
    obtain ⟨i,hi⟩ := List.getElem?_of_mem hw
    refine hlow i w.zIndex ?_ ⟨w,hi,hvisible,rfl⟩
    rintro rfl
    rw [hidden_of_newWindowId h hi] at hvisible
    cases hvisible
  · rintro hlow i z _ ⟨w,hw,hvisible,rfl⟩
    exact hlow w (List.mem_of_getElem? hw) hvisible

/-- A focused window that is put to height 7 is on top when the others are below. -/
theorem onTop_stacked_iff (hfocus : c₁.currentlyFocusedWindow = id) (hnew : ∃ z, Shown c₁.windows id z) :
    OnTop (c₁.stacked id 7) ↔ ∀ i z, i ≠ id → Shown c₁.windows i z → z < 7 := by
  have hshown : ∀ i z, Shown (c₁.stacked id 7).windows i z ↔
      if i = id then (∃ old, Shown c₁.windows id old) ∧ z = 7 else Shown c₁.windows i z := fun i z => shown_modify
  have hfocus' : (c₁.stacked id 7).currentlyFocusedWindow = id := hfocus
  unfold OnTop
  rw [hfocus']
  constructor
  · intro htop i z hi hz
    exact htop 7 ((hshown id 7).mpr (by rw [if_pos rfl]; exact ⟨hnew,rfl⟩)) i z hi ((hshown i z).mpr (by rw [if_neg hi]; exact hz))
  · intro hlow z hz i z' hi hz'
    rw [hshown,if_pos rfl] at hz
    rw [hshown,if_neg hi] at hz'
    exact hz.2.symm ▸ hlow i z' hi hz'

theorem restacks_stacked (hfocus : c₁.currentlyFocusedWindow = id) (hnew : ∃ z, Shown c₁.windows id z)
    (hapart : ∀ i j z, i ≠ id → j ≠ id → Shown c₁.windows i z → Shown c₁.windows j z → i = j) (horder : KeepsOrder c c₁)
    (hlow : ∀ i z, i ≠ id → Shown c₁.windows i z → z < 7) : Restacks c (c₁.stacked id 7) := by
  have hshown : ∀ i z, Shown (c₁.stacked id 7).windows i z ↔
      if i = id then (∃ old, Shown c₁.windows id old) ∧ z = 7 else Shown c₁.windows i z := fun i z => shown_modify
  refine ⟨fun i j z hi hj => ?_,(onTop_stacked_iff hfocus hnew).mpr hlow,fun i j hi hj zi zj zi' zj' hzi hzj hzi' hzj' => ?_⟩
  · rw [hshown] at hi hj
    split_ifs at hi hj with hid hjd hjd
    · exact hid.trans hjd.symm
    · exact absurd (hlow j z hjd hj) (by omega)
    · exact absurd (hlow i z hid hi) (by omega)
    · exact hapart i j z hid hjd hi hj
  · have hfocus' : (c₁.stacked id 7).currentlyFocusedWindow = id := hfocus
    rw [hfocus'] at hi hj
    rw [hshown,if_neg hi] at hzi'
    rw [hshown,if_neg hj] at hzj'
    exact horder i j (hfocus.symm ▸ hi) (hfocus.symm ▸ hj) zi zj zi' zj' hzi hzj hzi' hzj'

section Created
variable {top : Window fb} (h : c.Stacked) (htop : maxByKey (·.zIndex) (c.placed shape pid page).windows = some top)
include h htop

theorem raisable_placed (hfits : top.zIndex + 1 < 2^8) : Raisable c.newWindowId top.zIndex (c.placed shape pid page).windows := by
  refine ⟨fun i j z hi hj hzi hzj => ?_,fun _ _ => shown_le htop,hfits⟩
  rw [shown_placed h.consistent,if_neg hi] at hzi
  rw [shown_placed h.consistent,if_neg hj] at hzj
  exact h.apart i j z hzi hzj

theorem mayCreate_iff (hne : c.newWindowId ≠ c.currentlyFocusedWindow) : c.MayCreate ↔ top.zIndex + 1 < 2^8 ∧
    if top.zIndex > normalizeZIndexThreshold then c.windows.countP (·.isVisible) ≤ 7 else c.Low := by
  obtain ⟨hmem,hle⟩ := maxByKey_mem htop
  have hothers : ∀ w ∈ c.others, w.zIndex ≤ top.zIndex := fun w hw => hle w ((mem_placed _ _ _ h.consistent).mpr (.inr hw))
  have htop' : top.zIndex = 0 ∨ top ∈ c.others := by
    obtain rfl | hmem := (mem_placed _ _ _ h.consistent).mp hmem
    · exact .inl rfl
    · exact .inr hmem
  have hfits : (∀ w ∈ c.others, w.zIndex + 1 < 2^8) ↔ top.zIndex + 1 < 2^8 := by
    refine ⟨fun hall => ?_,fun hfits w hw => ?_⟩
    · obtain hzero | hmem := htop'
      · omega
      · exact hall top hmem
    · have := hothers w hw
      omega
  have hmany : (∃ w ∈ c.others, w.zIndex > normalizeZIndexThreshold) ↔ top.zIndex > normalizeZIndexThreshold := by
    constructor
    · rintro ⟨w,hw,hover⟩
      exact Nat.lt_of_lt_of_le hover (hothers w hw)
    · intro hover
      obtain hzero | hmem := htop'
      · rw [hzero] at hover
        exact absurd hover (Nat.not_lt_zero _)
      · exact ⟨top,hmem,hover⟩
  have hfew : (∀ w ∈ c.others, w.zIndex ≤ normalizeZIndexThreshold) ↔ ¬ top.zIndex > normalizeZIndexThreshold := by
    rw [← hmany]
    simp only [not_exists,not_and,Nat.not_lt]
  unfold Compositor.MayCreate
  rw [if_neg hne,hfits,hmany,hfew]
  split_ifs with hover
  · exact and_congr_right fun _ => ⟨fun hboth => hboth.1 hover,fun hcount => ⟨fun _ => hcount,fun hnot => absurd hover hnot⟩⟩
  · exact and_congr_right fun _ => ⟨fun hboth => hboth.2 hover,fun hlow => ⟨fun hover' => absurd hover' hover,fun _ => hlow⟩⟩

/-- The windows that a new one finds below it. -/
theorem low_refocused_iff (hfits : top.zIndex + 1 < 2^8) :
    (∀ i z, i ≠ c.newWindowId → Shown ((c.placed shape pid page).refocused c.newWindowId top.zIndex).windows i z → z < 7) ↔
      if top.zIndex > normalizeZIndexThreshold then c.windows.countP (·.isVisible) ≤ 7 else c.Low := by
  have hraisable := raisable_placed h htop hfits
  simp only [shown_refocused]
  split_ifs with hover
  · rw [hraisable.restacked_low_iff ⟨0,shown_new h.consistent⟩ hover,countP_placed h.consistent]
    omega
  · rw [← low_iff h.consistent]
    refine forall_congr' fun i => forall_congr' fun z => imp_congr_right fun hi => ?_
    rw [restacked,if_neg hover,shown_raised hfits,if_neg hi,shown_placed h.consistent,if_neg hi]

end Created

/-- A window is created with all others below it, and nothing overflows, exactly when it may be. -/
theorem Compositor.Stacked.created (p : Profile) (shape : PlacedWindow fb) (pid : Nat) (page : Bool) (h : c.Stacked) (hsmall : c.windows.length < heapSizeBytes) :
    (c.MayCreate ↔ (∀ z ∈ (c.placed shape pid page).computedZIndices c.newWindowId, z < 2^8) ∧
      ∀ c₁, (c.placed shape pid page).focusWindow p c.newWindowId = .ok c₁ → OnTop (c₁.stacked c.newWindowId 7)) ∧
    (c.MayCreate → ∀ c₁, (c.placed shape pid page).focusWindow p c.newWindowId = .ok c₁ →
      Restacks c (c₁.stacked c.newWindowId 7)) := by
  have hplaced : (c.placed shape pid page).Consistent := h.consistent.placed hsmall
  have hwindow : (c.placed shape pid page).windows[c.newWindowId]? = some (newWindow shape pid page c.newWindowId) :=
    (getElem?_placed h.consistent).trans (if_pos rfl)
  have hshown : ∀ i z, i ≠ c.newWindowId → (Shown (c.placed shape pid page).windows i z ↔ Shown c.windows i z) := by
    intro i z hi
    rw [shown_placed h.consistent,if_neg hi]
  have hnew : ∃ z, Shown (c.placed shape pid page).windows c.newWindowId z := ⟨0,shown_new h.consistent⟩
  by_cases hfocus : c.newWindowId = c.currentlyFocusedWindow
  · -- the focus stays on the id that is used again
    have hrun : (c.placed shape pid page).focusWindow p c.newWindowId = .ok (c.placed shape pid page) := by
      rw [Compositor.focusWindow,if_pos (.inr hfocus)]
    have hcomputed : (c.placed shape pid page).computedZIndices c.newWindowId = [] := by
      rw [Compositor.computedZIndices,Compositor.raisedOver,if_pos (.inr hfocus)]
      rfl
    have hlow : (∀ i z, i ≠ c.newWindowId → Shown (c.placed shape pid page).windows i z → z < 7) ↔ c.MayCreate := by
      unfold Compositor.MayCreate
      rw [if_pos hfocus,← low_iff h.consistent]
      exact forall_congr' fun i => forall_congr' fun z => imp_congr_right fun hi => by rw [hshown i z hi]
    have hfocus' : (c.placed shape pid page).currentlyFocusedWindow = c.newWindowId := hfocus.symm
    have hontop := onTop_stacked_iff hfocus' hnew
    refine ⟨⟨fun hmay => ⟨fun z hz => (by rw [hcomputed] at hz; cases hz),fun c₁ hc₁ => ?_⟩,fun hrest => ?_⟩,fun hmay c₁ hc₁ => ?_⟩
    · cases hrun.symm.trans hc₁
      exact hontop.mpr (hlow.mpr hmay)
    · exact hlow.mp (hontop.mp (hrest.2 _ hrun))
    · cases hrun.symm.trans hc₁
      refine restacks_stacked hfocus' hnew (fun i j z hi hj hzi hzj => ?_) ?_ (hlow.mpr hmay)
      · exact h.apart i j z ((hshown i z hi).mp hzi) ((hshown j z hj).mp hzj)
      · intro i j hi hj zi zj zi' zj' hzi hzj hzi' hzj'
        rw [hzi.unique ((hshown i zi' (hfocus ▸ hi)).mp hzi'),hzj.unique ((hshown j zj' (hfocus ▸ hj)).mp hzj')]
  · have hinvalid := hplaced.window_ne hwindow
    obtain ⟨top,htop⟩ : ∃ top, maxByKey (fun w : Window fb => w.zIndex) (c.placed shape pid page).windows = some top := by
      cases hmax : maxByKey (fun w : Window fb => w.zIndex) (c.placed shape pid page).windows with
      | none =>
        rw [maxByKey_eq_none.mp hmax] at hwindow
        cases hwindow
      | some top => exact ⟨top,rfl⟩
    have hcomputed : (∀ z ∈ (c.placed shape pid page).computedZIndices c.newWindowId, z < 2^8) ↔ top.zIndex + 1 < 2^8 := by
      rw [computed_lt_iff fun _ htop' => raisable_placed h htop']
      refine ⟨fun hall => hall top ⟨hinvalid,hfocus⟩ htop (by rw [hwindow]; exact Option.some_ne_none _),fun hfits top' _ htop' _ => ?_⟩
      cases htop.symm.trans htop'
      exact hfits
    have hruns : top.zIndex + 1 < 2^8 → ∀ c₁, (c.placed shape pid page).focusWindow p c.newWindowId = .ok c₁ ↔
        c₁ = (c.placed shape pid page).refocused c.newWindowId top.zIndex := by
      intro hfits c₁
      have hfocusing := focusWindow_focusing p c.newWindowId hplaced.rings
      generalize (c.placed shape pid page).focusWindow p c.newWindowId = r at hfocusing
      cases hfocusing with
      | same hsame => exact absurd hsame (not_or.mpr ⟨hinvalid,hfocus⟩)
      | empty _ hempty =>
        rw [hempty] at hwindow
        cases hwindow
      | missing _ _ hnone =>
        rw [hwindow] at hnone
        cases hnone
      | overflow top' w _ htop' _ _ hover =>
        cases htop.symm.trans htop'
        exact absurd hfits (Nat.not_lt.mpr hover)
      | moved top' w _ htop' =>
        cases htop.symm.trans htop'
        exact ⟨fun hc₁ => (Except.ok.inj hc₁).symm,fun hc₁ => congrArg _ hc₁.symm⟩
    have hnew' : ∃ z, Shown ((c.placed shape pid page).refocused c.newWindowId top.zIndex).windows c.newWindowId z := by
      obtain ⟨z,b,hw,_⟩ := (hplaced.restyled_refocused c.newWindowId top.zIndex).same _ _ hwindow
      exact ⟨z,_,hw,rfl,rfl⟩
    have hfocus' : ((c.placed shape pid page).refocused c.newWindowId top.zIndex).currentlyFocusedWindow = c.newWindowId := rfl
    have hontop := onTop_stacked_iff hfocus' hnew'
    rw [hcomputed,mayCreate_iff h htop hfocus]
    refine ⟨and_congr_right fun hfits => ?_,fun hmay c₁ hc₁ => ?_⟩
    · rw [← low_refocused_iff h htop hfits,← hontop]
      refine ⟨fun hlow c₁ hc₁ => ?_,fun hall => hall _ ((hruns hfits _).mpr rfl)⟩
      cases (hruns hfits c₁).mp hc₁
      exact hlow
    · cases (hruns hmay.1 c₁).mp hc₁
      have hraisable := raisable_placed h htop hmay.1
      have hmoved : Restacks (c.placed shape pid page) _ := hraisable.restacks
      refine restacks_stacked rfl hnew' (fun i j z _ _ => hmoved.apart i j z) ?_ ((low_refocused_iff h htop hmay.1).mpr hmay.2)
      intro i j hi hj zi zj zi' zj' hzi hzj
      exact hmoved.order i j hi hj zi zj zi' zj' ((hshown i zi hi).mpr hzi) ((hshown j zj hj).mpr hzj)

end Create
section Run

/-- A step from a stacked state is fine exactly when it meets the condition, and keeps the state stacked then. -/
theorem Compositor.Stacked.step_iff (h : c.Stacked) (a : Action) :
    (NoOverflow p keys a c ∧ (∀ c', step p keys a c = some c' → OnTop c' ∧ KeepsOrder c c') ↔ KeepsOnTop p keys a c) ∧
    (KeepsOnTop p keys a c → ∀ c', step p keys a c = some c' → c'.Stacked) := by
  suffices hsuff : (KeepsOnTop p keys a c → NoOverflow p keys a c ∧ ∀ c', exec p keys a c = .ok c' → Restacks c c') ∧
      (NoOverflow p keys a c → (∀ c', exec p keys a c = .ok c' → OnTop c') → KeepsOnTop p keys a c) by
    refine ⟨⟨fun hfine => hsuff.2 hfine.1 fun c' hrun => (hfine.2 c' ?_).1,fun hkeeps => ?_⟩,fun hkeeps c' hstep => ?_⟩
    · rw [step,hrun]
      rfl
    · obtain ⟨hno,hrestacks⟩ := hsuff.1 hkeeps
      exact ⟨hno,fun c' hstep => ⟨(hrestacks c' (of_toOption hstep)).onTop,(hrestacks c' (of_toOption hstep)).order⟩⟩
    · have hrestacks := (hsuff.1 hkeeps).2 c' (of_toOption hstep)
      exact ⟨h.consistent.exec (of_toOption hstep),hrestacks.apart,hrestacks.onTop⟩
  cases a with
  | createWindow pid x y width height room page =>
    change (KeepsOnTop p keys (.createWindow pid x y width height room page) c → _ ∧
        ∀ c', c.sysCreateWindow p pid x y width height room page = .ok c' → Restacks c c') ∧
      (_ → (∀ c', c.sysCreateWindow p pid x y width height room page = .ok c' → OnTop c') → _)
    rw [sysCreateWindow_eq h.consistent]
    by_cases hsize : Accepted fb width height
    · by_cases hroom : room = true ∧ c.windows.length < heapSizeBytes
      · have hcall : Action.focusing p keys (.createWindow pid x y width height room page) c =
            some (c.newWindowId,c.placed ⟨x,y,width,height,true,hsize.1,hsize.2⟩ pid page) := by
          rw [Action.focusing,dif_pos hsize,if_pos hroom]
        rw [dif_pos hsize,if_pos hroom]
        obtain ⟨hiff,hrestacks⟩ := h.created p ⟨x,y,width,height,true,hsize.1,hsize.2⟩ pid page hroom.2
        refine ⟨fun hkeeps => ⟨fun call hcall' => ?_,fun c' hrun => ?_⟩,fun hno htop _ _ => hiff.mpr ⟨hno _ hcall,fun c₁ hc₁ => ?_⟩⟩
        · cases hcall.symm.trans hcall'
          exact (hiff.mp (hkeeps hsize hroom)).1
        · obtain ⟨c₁,hc₁,hrun⟩ := bind_eq_ok hrun
          cases hrun
          exact hrestacks (hkeeps hsize hroom) c₁ hc₁
        · exact htop _ (by rw [hc₁]; rfl)
      · rw [dif_pos hsize,if_neg hroom]
        refine ⟨fun _ => ⟨fun call hcall => ?_,fun c' hrun => by cases hrun⟩,fun _ _ _ hroom' => absurd hroom' hroom⟩
        rw [Action.focusing,dif_pos hsize,if_neg hroom] at hcall
        cases hcall
    · rw [dif_neg hsize]
      refine ⟨fun _ => ⟨fun call hcall => ?_,fun c' hrun => ?_⟩,fun _ _ hsize' => absurd hsize' hsize⟩
      · rw [Action.focusing,dif_neg hsize] at hcall
        cases hcall
      · cases hrun
        exact .of_shown h rfl fun _ _ hshown => hshown
  | destroyWindow id =>
    refine ⟨fun _ => ⟨(fun call hcall => by cases hcall),fun c' hrun => ?_⟩,fun _ _ => trivial⟩
    cases hrun
    exact .hide h (fun i _ => i = id) (destroyWindow_rest id c).1 fun i => getElem?_destroyWindow h.consistent
  | destroyWindowsOfProcess pid =>
    refine ⟨fun _ => ⟨(fun call hcall => by cases hcall),fun c' hrun => ?_⟩,fun _ _ => trivial⟩
    cases hrun
    exact .hide h (fun _ w => w.ownerPid = pid) (destroyWindowsOfProcess_rest h.consistent pid).1
      fun i => getElem?_destroyWindowsOfProcess h.consistent
  | focusWindow id =>
    refine ⟨fun hmay => ⟨fun call hcall => ?_,fun c' hrun => h.focusWindow hmay hrun⟩,fun hno _ => ?_⟩
    · cases hcall
      exact h.mayRaise_iff.mp hmay
    · exact h.mayRaise_iff.mpr (hno (id,c) rfl)
  | clearTransient =>
    refine ⟨fun _ => ⟨(fun call hcall => by cases hcall),fun c' hrun => ?_⟩,fun _ _ => trivial⟩
    cases hrun
    exact .of_shown h rfl fun _ _ hshown => hshown
  | input input =>
    refine ⟨fun hkeeps => ⟨fun call hcall => ?_,fun c' hrun => ?_⟩,fun hno _ mouseX mouseY id haim => ?_⟩
    · unfold Action.focusing at hcall
      dsimp only at hcall
      split at hcall
      · rename_i mouseX mouseY id haim
        cases hcall
        exact h.mayRaise_iff.mp (hkeeps mouseX mouseY id haim)
      · cases hcall
    · obtain ⟨mouseX,mouseY,target,c₁,haim,hfocus,rfl⟩ := (processInputEvent_iff h.consistent input).mp hrun
      refine Restacks.delivered ?_ input
      cases target with
      | none =>
        cases hfocus
        exact .of_shown h rfl fun _ _ hshown => hshown
      | some id =>
        have hmoved : Compositor.Stacked { c with mouseX, mouseY } := ⟨h.consistent.moved mouseX mouseY,h.apart,h.onTop⟩
        have hmay : MayRaise id { c with mouseX, mouseY } := hkeeps mouseX mouseY id haim
        have hrestacks := hmoved.focusWindow hmay hfocus
        exact ⟨hrestacks.apart,hrestacks.onTop,hrestacks.order⟩
    · refine h.mayRaise_iff.mpr (hno (id,c) ?_)
      unfold Action.focusing
      dsimp only
      rw [haim]
  | tryRead id =>
    refine ⟨fun _ => ⟨(fun call hcall => by cases hcall),fun c' hrun => ?_⟩,fun _ _ => trivial⟩
    rw [tryRead_eq] at hrun
    cases hrun
    exact .of_shown h rfl fun _ _ => shown_onBuffer.mp

theorem Compositor.Stacked.start : Compositor.Stacked ({} : Compositor fb) := by
  have hnone : ∀ i z, ¬ Shown ({} : Compositor fb).windows i z := by
    rintro i z ⟨w,hw,_⟩
    cases hw
  exact ⟨.start,fun i j z hi => absurd hi (hnone i z),fun z hz => absurd hz (hnone _ z)⟩

/-- No z_index overflows, the focused window is on top and the others stay in their order, in every step of a run,
exactly when the steps meet the condition. -/
theorem run_keeps_on_top_iff (fb : FrameBufferTarget) (p : Profile) (keys : KeyCodes) (acts : List Action) :
    (∀ before a c, before ++ [a] <+: acts → steps (step p keys) before ({} : Compositor fb) = some c →
      NoOverflow p keys a c ∧ ∀ c', step p keys a c = some c' → OnTop c' ∧ KeepsOrder c c') ↔
    stepsMeet (step p keys) (KeepsOnTop p keys) acts ({} : Compositor fb) :=
  steps_each_iff (I := Compositor.Stacked) (fun a _ h => (h.step_iff a).1) (fun a _ c' h hkeeps => (h.step_iff a).2 hkeeps c') .start

/-- Two new windows share a height. -/
theorem two_windows_at_seven : ¬ ∀ c, steps (step .release ⟨0,1,2⟩) [.create 0 0,.create 0 0]
    ({} : Compositor smallScreen.toFrameBufferTarget) = some c → OnTop c := by
  intro hclaim
  have hview : ((steps (step .release ⟨0,1,2⟩) [.create 0 0,.create 0 0] ({} : Compositor smallScreen.toFrameBufferTarget)).map
      fun c => (c.currentlyFocusedWindow,c.windows.map fun w => (w.isVisible,w.zIndex))) =
      some (1,[(true,7),(true,7)]) := by decide +kernel
  obtain ⟨c,hrun,hc⟩ := Option.map_eq_some_iff.mp hview
  obtain ⟨hfocus,hwindows⟩ := Prod.mk.inj hc
  have hshown : ∀ i, [(true,7),(true,7)][i]? = some (true,7) → Shown c.windows i 7 := by
    intro i hi
    rw [← hwindows,List.getElem?_map] at hi
    obtain ⟨w,hw,heq⟩ := Option.map_eq_some_iff.mp hi
    obtain ⟨hvisible,hz⟩ := Prod.mk.inj heq
    exact ⟨w,hw,hvisible,hz⟩
  refine absurd (hclaim c hrun 7 ?_ 0 7 ?_ (hshown 0 rfl)) (Nat.lt_irrefl 7)
  · rw [hfocus]
    exact hshown 1 rfl
  · rw [hfocus]
    decide

end Run
end MofuOS.Graphics.Focus
