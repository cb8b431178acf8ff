import MofuOS.Graphics.FocusVisible
import MofuOS.Graphics.Drawable

/-! A click and the composition find one window at a pixel where the last of the windows in the table is the topmost:
the composition copies them in the order of the table, whatever their z indices. -/
namespace MofuOS.Graphics.Focus
open Lib Events Compose

/-- The rows write the pixel at this byte. -/
def Writes (dst : Nat) (rows : List RowCopy) : Prop := ∃ row ∈ rows, ∃ i < row.count, dst = row.dstOffset + 4 * i

instance (dst : Nat) (rows : List RowCopy) : Decidable (Writes dst rows) := inferInstanceAs (Decidable (∃ row ∈ rows, _))

section Property
variable {fb : FrameBufferTarget}

/-- The window whose pixel is left at a byte is the last one that is copied there. -/
def painted (windows : List (Window fb)) (f : Composed fb) (dst : Nat) : Option Nat :=
  ((((windows.filter (·.isVisible)).zip f.copied).filter fun copy => decide (Writes dst copy.2.2)).getLast?).map (·.1.id)

/-- What compose reads of the compositor, with the places of the cursor. -/
def Compositor.toCompose (mouse mouseLastDrawn : Int32 × Int32) (cursorVisible : Bool) (c : Compositor fb) : Compose.Compositor fb where
  windows := c.windows.map (·.toPlacedWindow)
  mouse
  mouseLastDrawn
  cursorVisible

/-- The composition stays in bounds, and where it shows a window a click finds that window. -/
def ShowsClicked (p : Profile) (c : Compositor fb) : Prop := ∀ mouse mouseLastDrawn cursorVisible, ∃ f,
  compose p (c.toCompose mouse mouseLastDrawn cursorVisible) = .ok f ∧ InBounds (c.toCompose mouse mouseLastDrawn cursorVisible) f ∧
    ∀ x y : Nat, x < fb.width.toNat → y < fb.height.toNat → covering x y c.windows ≠ [] →
      windowAt p x y c.windows = .ok (painted c.windows f (y * fb.pitch.toNat + 4 * x))

/-- At every pixel the window with the highest id has the highest z_index. -/
def InOrder (c : Compositor fb) : Prop := ∀ x y : Nat, x < fb.width.toNat → y < fb.height.toNat →
  ∀ w ∈ covering x y c.windows, ∀ u ∈ covering x y c.windows, (∀ v ∈ covering x y c.windows, v.id ≤ u.id) → w.zIndex ≤ u.zIndex

end Property
section Painted
variable {fb : FrameBufferTarget} {windows : List (Window fb)} {x y : Nat}

/-- Pixels of the screen have bytes of their own. -/
theorem pixel_inj {x' y' : Nat} (hx : x < fb.width.toNat) (hx' : x' < fb.width.toNat)
    (h : y * fb.pitch.toNat + 4 * x = y' * fb.pitch.toNat + 4 * x') : x = x' ∧ y = y' := by
  have hpitch := fb.pitch_ge
  have hrow : ∀ y x, x < fb.width.toNat → (y * fb.pitch.toNat + 4 * x) / fb.pitch.toNat = y := by
    intro y x hx
    rw [Nat.add_comm,Nat.add_mul_div_right _ _ (by omega),Nat.div_eq_of_lt (by omega),Nat.zero_add]
  have hy : y = y' := by rw [← hrow y x hx,← hrow y' x' hx',h]
  subst hy
  exact ⟨by omega,rfl⟩

theorem writes_iff {w : PlacedWindow fb} {rows : List RowCopy} (h : CopiesWindow w rows) (hx : x < fb.width.toNat)
    (hy : y < fb.height.toNat) : Writes (y * fb.pitch.toNat + 4 * x) rows ↔ Covers x y w := by
  constructor
  · rintro ⟨row,hrow,i,hi,hdst⟩
    obtain ⟨sx,hsx,sy,hsy,hleft,hright,htop,hbottom,_,heq⟩ := (h.pixels _ _).mp ⟨row,hrow,i,hi,rfl,hdst⟩
    obtain ⟨rfl,rfl⟩ := pixel_inj hx hsx heq
    exact ⟨hleft,hright,htop,hbottom⟩
  · rintro ⟨hleft,hright,htop,hbottom⟩
    have hsrc : (0 : Int) ≤ (y - w.y.toInt) * w.width.toNat + (x - w.x.toInt) :=
      Int.add_nonneg (Int.mul_nonneg (by omega) (Int.natCast_nonneg _)) (by omega)
    obtain ⟨row,hrow,i,hi,_,hdst⟩ := (h.pixels ((y - w.y.toInt) * w.width.toNat + (x - w.x.toInt)).toNat _).mpr
      ⟨x,hx,y,hy,hleft,hright,htop,hbottom,Int.toNat_of_nonneg hsrc,rfl⟩
    exact ⟨row,hrow,i,hi,hdst⟩

/-- The window that is painted is the last one in the table that covers the pixel. -/
theorem painted_eq {mouse mouseLastDrawn : Int32 × Int32} {cursorVisible : Bool} {c : Compositor fb} {f : Composed fb}
    (h : InBounds (c.toCompose mouse mouseLastDrawn cursorVisible) f) (hx : x < fb.width.toNat) (hy : y < fb.height.toNat) :
    painted c.windows f (y * fb.pitch.toNat + 4 * x) = ((covering x y c.windows).getLast?).map (·.id) := by
  have hzip : ∀ (visible : List (Window fb)) (copied : List (PlacedWindow fb × List RowCopy)),
      copied.map Prod.fst = visible.map (·.toPlacedWindow) → (∀ w rows, (w,rows) ∈ copied → CopiesWindow w rows) →
        ((visible.zip copied).filter fun copy => decide (Writes (y * fb.pitch.toNat + 4 * x) copy.2.2)).map Prod.fst =
          visible.filter fun w => decide (Covers x y w.toPlacedWindow) := by
    intro visible copied hfst hcopies
    induction visible generalizing copied with
    | nil => rfl
    | cons w visible ih =>
      cases copied with
      | nil => cases hfst
      | cons copy copied =>
        obtain ⟨hw,hfst⟩ := List.cons.inj hfst
        have hw : copy.1 = w.toPlacedWindow := hw
        have hcopy : CopiesWindow w.toPlacedWindow copy.2 := hw ▸ hcopies copy.1 copy.2 List.mem_cons_self
        have hrest := ih copied hfst fun w' rows hmem => hcopies w' rows (List.mem_cons_of_mem _ hmem)
        rw [List.zip_cons_cons,List.filter_cons,List.filter_cons]
        by_cases hcovers : Covers x y w.toPlacedWindow
        · rw [if_pos (decide_eq_true ((writes_iff hcopy hx hy).mpr hcovers)),if_pos (decide_eq_true hcovers),List.map_cons,hrest]
        · rw [if_neg fun hwrites => hcovers ((writes_iff hcopy hx hy).mp (of_decide_eq_true hwrites)),
            if_neg fun hd => hcovers (of_decide_eq_true hd),hrest]
  have hvisible : (c.windows.map (·.toPlacedWindow)).filter (·.isVisible) =
      (c.windows.filter (·.isVisible)).map (·.toPlacedWindow) := List.filter_map
  have hcovering : covering x y c.windows =
      (c.windows.filter (·.isVisible)).filter fun w => decide (Covers x y w.toPlacedWindow) := by
    rw [List.filter_filter,covering]
    exact List.filter_congr fun w _ => Bool.and_comm ..
  rw [hcovering,← hzip _ f.copied (h.windows.trans hvisible) h.copies,List.getLast?_map,Option.map_map]
  rfl

theorem maxByKey_getLast_iff {α : Type} {key id : α → Nat} {l : List α} (h : (l.map id).Nodup) :
    (maxByKey key l).map id = l.getLast?.map id ↔ ∀ last, l.getLast? = some last → ∀ a ∈ l, key a ≤ key last := by
  cases l using List.reverseRecOn with
  | nil => exact ⟨fun _ => nofun,fun _ => rfl⟩
  | append_singleton l a =>
    rw [maxByKey_concat,List.getLast?_concat]
    obtain ⟨hnone,rfl⟩ | ⟨b,hb,hmax,hle⟩ := maxByKey_spec key l
    · rw [hnone]
      refine ⟨fun _ last hlast a' ha' => ?_,fun _ => rfl⟩
      cases hlast
      rw [List.mem_singleton.mp ha']
    · rw [hmax]
      dsimp only
      split_ifs with hba
      · refine ⟨fun _ last hlast a' ha' => ?_,fun _ => rfl⟩
        cases hlast
        obtain ha' | ha' := List.mem_append.mp ha'
        · exact Nat.le_trans (hle a' ha') hba
        · rw [List.mem_singleton.mp ha']
      · constructor
        · intro heq
          rw [List.map_append] at h
          exact absurd (Option.some.inj heq) fun heq =>
            (List.nodup_append.mp h).2.2 (id b) (List.mem_map_of_mem hb) (id a) List.mem_cons_self heq
        · intro hall
          exact absurd (hall a rfl b (List.mem_append_left _ hb)) hba

end Painted
section Reachable
variable {screen : Screen} {p : Profile} {c : Compositor screen.toFrameBufferTarget}

/-- Windows stand in the table in the order of their ids. -/
theorem Compositor.Consistent.covering_ids (h : c.Consistent) (x y : Int) :
    (covering x y c.windows).Pairwise fun w u => w.id < u.id := by
  refine List.Pairwise.sublist List.filter_sublist (List.pairwise_iff_getElem.mpr fun i j hi hj hlt => ?_)
  have hidI : c.windows[i].id = i := h.slots.ids i _ (List.getElem?_eq_getElem hi)
  have hidJ : c.windows[j].id = j := h.slots.ids j _ (List.getElem?_eq_getElem hj)
  rw [hidI,hidJ]
  exact hlt

theorem Compositor.Consistent.covering_last (h : c.Consistent) (x y : Int) {u : Window screen.toFrameBufferTarget} :
    (covering x y c.windows).getLast? = some u ↔ u ∈ covering x y c.windows ∧ ∀ v ∈ covering x y c.windows, v.id ≤ u.id := by
  have hids := h.covering_ids x y
  generalize covering x y c.windows = l at hids
  cases l using List.reverseRecOn with
  | nil => exact ⟨nofun,fun hu => nomatch hu.1⟩
  | append_singleton l a =>
    have hlt := (List.pairwise_append.mp hids).2.2
    rw [List.getLast?_concat]
    constructor
    · intro heq
      cases heq
      refine ⟨by simp,fun v hv => ?_⟩
      obtain hv | hv := List.mem_append.mp hv
      · exact Nat.le_of_lt (hlt v hv _ List.mem_cons_self)
      · rw [List.mem_singleton.mp hv]
    · rintro ⟨hu,hmax⟩
      obtain hu | hu := List.mem_append.mp hu
      · exact absurd (hmax a (by simp)) (Nat.not_le.mpr (hlt u hu a List.mem_cons_self))
      · rw [List.mem_singleton.mp hu]

/-- At a pixel a click finds the window that is painted exactly when the last one that covers it is the topmost. -/
theorem Compositor.Consistent.windowAt_painted_iff (h : c.Consistent) {mouse mouseLastDrawn : Int32 × Int32} {cursorVisible : Bool}
    {f : Composed screen.toFrameBufferTarget} (hf : InBounds (c.toCompose mouse mouseLastDrawn cursorVisible) f) {x y : Nat}
    (hx : x < screen.width.toNat) (hy : y < screen.height.toNat) :
    windowAt p x y c.windows = .ok (painted c.windows f (y * screen.pitch.toNat + 4 * x)) ↔
      ∀ w ∈ covering x y c.windows, ∀ u ∈ covering x y c.windows, (∀ v ∈ covering x y c.windows, v.id ≤ u.id) → w.zIndex ≤ u.zIndex := by
  have hnodup : ((covering x y c.windows).map (·.id)).Nodup :=
    List.pairwise_map.mpr ((h.covering_ids x y).imp Nat.ne_of_lt)
  rw [painted_eq hf hx hy,windowAt_eq ⟨by omega,by omega⟩ ⟨by omega,by omega⟩,Except.ok.injEq,maxByKey_getLast_iff hnodup]
  constructor
  · exact fun hall w hw u hu hmax => hall u ((h.covering_last x y).mpr ⟨hu,hmax⟩) w hw
  · intro hall u hlast w hw
    obtain ⟨hu,hmax⟩ := (h.covering_last x y).mp hlast
    exact hall w hw u hu hmax

/-- The composition stays in bounds for drawable windows. -/
theorem compose_inBounds (hdrawable : ∀ w ∈ c.windows, w.isVisible = true → Drawable p w.toPlacedWindow)
    (mouse mouseLastDrawn : Int32 × Int32) (cursorVisible : Bool) : ∃ f,
      compose p (c.toCompose mouse mouseLastDrawn cursorVisible) = .ok f ∧ InBounds (c.toCompose mouse mouseLastDrawn cursorVisible) f := by
  obtain ⟨cleared,hcleared,hclearedIn⟩ := drawCursor_runs screen.addressable mouseLastDrawn
  obtain ⟨drawn,hdrawn,hdrawnIn⟩ := drawCursor_runs screen.addressable mouse
  have hrows : ∀ w ∈ (c.windows.map (·.toPlacedWindow)).filter (·.isVisible),
      composeWindow p w = .ok ((composeWindow p w).toOption.getD []) ∧ CopiesWindow w ((composeWindow p w).toOption.getD []) := by
    intro w hw
    obtain ⟨hmem,hvisible⟩ := List.mem_filter.mp hw
    obtain ⟨u,hu,rfl⟩ := List.mem_map.mp hmem
    obtain ⟨rows,hrows,hcopies⟩ := composeWindow_drawable screen.addressable (hdrawable u hu hvisible)
    rw [hrows]
    exact ⟨rfl,hcopies⟩
  have hcopied := mapM_ok (f := fun w => do
      let rows ← composeWindow p w
      .ok (w,rows)) (g := fun w => (w,(composeWindow p w).toOption.getD []))
    (l := (c.windows.map (·.toPlacedWindow)).filter (·.isVisible)) fun w hw => by rw [(hrows w hw).1]; rfl
  refine ⟨⟨cleared,((c.windows.map (·.toPlacedWindow)).filter (·.isVisible)).map fun w => (w,(composeWindow p w).toOption.getD []),
    if cursorVisible then drawn else []⟩,?_,?_,fun w rows hmem => ?_,hclearedIn,fun offset hoffset => ?_⟩
  · rw [compose,Compositor.toCompose,hcleared,ok_bind,hcopied,ok_bind]
    split_ifs
    · rw [hdrawn,ok_bind]
    · rfl
  · rw [List.map_map]
    exact List.map_id _
  · obtain ⟨u,hu,heq⟩ := List.mem_map.mp hmem
    cases heq
    exact (hrows _ hu).2
  · dsimp only at hoffset
    split_ifs at hoffset
    · exact hdrawnIn offset hoffset
    · cases hoffset

theorem Compositor.Consistent.showsClicked_iff (h : c.Consistent) : ShowsClicked p c ↔
    (∀ w ∈ c.windows, w.isVisible = true → Drawable p w.toPlacedWindow) ∧ InOrder c := by
  constructor
  · intro hshows
    obtain ⟨f,hrun,hf,hclicks⟩ := hshows (0,0) (0,0) false
    refine ⟨fun w hw hvisible => ?_,fun x y hx hy w hw => ?_⟩
    · obtain ⟨cleared,_,hrun⟩ := bind_eq_ok hrun
      obtain ⟨copied,hcopied,hrun⟩ := bind_eq_ok hrun
      cases hrun
      have hmem : w.toPlacedWindow ∈ (c.windows.map (·.toPlacedWindow)).filter (·.isVisible) :=
        List.mem_filter.mpr ⟨List.mem_map_of_mem hw,hvisible⟩
      obtain ⟨⟨w',rows⟩,hcopy,hrows⟩ := mapM_mem hcopied hmem
      obtain ⟨rows',hrows',hpair⟩ := bind_eq_ok hrows
      cases hpair
      exact drawable_of_composeWindow screen.addressable hrows' (hf.copies _ _ hcopy)
    · exact (h.windowAt_painted_iff hf hx hy).mp (hclicks x y hx hy (List.ne_nil_of_mem hw)) w hw
  · rintro ⟨hdrawable,horder⟩ mouse mouseLastDrawn cursorVisible
    obtain ⟨f,hrun,hf⟩ := compose_inBounds hdrawable mouse mouseLastDrawn cursorVisible
    exact ⟨f,hrun,hf,fun x y hx hy _ => (h.windowAt_painted_iff hf hx hy).mpr (horder x y hx hy)⟩

end Reachable
section Run

theorem consistent_of_steps {fb : FrameBufferTarget} {p : Profile} {keys : KeyCodes} {acts : List Action} {c : Compositor fb}
    (hrun : steps (step p keys) acts ({} : Compositor fb) = some c) : c.Consistent :=
  steps_keep (fun _ _ _ h hstep => h.exec (of_toOption hstep)) .start hrun

/-- What is clicked is what is seen, in a state that a run has reached, exactly when the visible windows can be drawn
and their z indices follow their ids wherever they overlap. -/
theorem run_shows_clicked_iff (screen : Screen) (p : Profile) (keys : KeyCodes) (acts : List Action)
    (c : Compositor screen.toFrameBufferTarget) (hrun : steps (step p keys) acts {} = some c) : ShowsClicked p c ↔
      (∀ w ∈ c.windows, w.isVisible = true → Drawable p w.toPlacedWindow) ∧ InOrder c :=
  (consistent_of_steps hrun).showsClicked_iff

/-- Where two windows overlap a click finds the second, which is drawn over the first. -/
theorem run_shows_clicked_two : ∃ c, steps (step .release ⟨0,1,2⟩) [.create 0 0,.create 5 5]
      ({} : Compositor smallScreen.toFrameBufferTarget) = some c ∧
    (covering 5 5 c.windows).map (·.id) = [0,1] ∧ ShowsClicked .release c := by
  have hview : ((steps (step .release ⟨0,1,2⟩) [.create 0 0,.create 5 5]
      ({} : Compositor smallScreen.toFrameBufferTarget)).map fun c =>
        (c.windows.map fun w => (w.zIndex,w.x,w.y),(covering 5 5 c.windows).map (·.id))) =
          some ([(7,0,0),(7,5,5)],[0,1]) := by
    decide +kernel
  obtain ⟨c,hrun,hc⟩ := Option.map_eq_some_iff.mp hview
  obtain ⟨hwindows,hboth⟩ := Prod.mk.inj hc
  have hplace : ∀ w ∈ c.windows, (w.zIndex,w.x,w.y) = (7,0,0) ∨ (w.zIndex,w.x,w.y) = (7,5,5) := by
    intro w hw
    have hmem := List.mem_map_of_mem (f := fun w : Window smallScreen.toFrameBufferTarget => (w.zIndex,w.x,w.y)) hw
    rw [hwindows] at hmem
    simpa only [List.mem_cons,List.not_mem_nil,or_false] using hmem
  refine ⟨c,hrun,hboth,(run_shows_clicked_iff smallScreen .release ⟨0,1,2⟩ _ c hrun).mpr ⟨fun w hw _ => ?_,?_⟩⟩
  · have hwidth : w.width.toNat ≤ 800 := w.width_fits.2
    have hheight : w.height.toNat ≤ 600 := w.height_fits.2
    refine ⟨fun h => absurd h (by decide),.inr (.inr ?_)⟩
    unfold Reaches
    have hzero : (0 : Int32).toInt = 0 := rfl
    have hfive : (5 : Int32).toInt = 5 := rfl
    obtain h | h := hplace w hw <;> obtain ⟨_,hxy⟩ := Prod.mk.inj h <;> obtain ⟨hx,hy⟩ := Prod.mk.inj hxy
    · rw [hx,hy]
      omega
    · rw [hx,hy]
      omega
  · intro x y _ _ w hw u hu _
    have hz : ∀ w ∈ covering x y c.windows, w.zIndex = 7 := by
      intro w hw
      obtain h | h := hplace w (List.mem_filter.mp hw).1 <;> exact (Prod.mk.inj h).1
    rw [hz w hw,hz u hu]

/-- Of two windows at one place the first gets the focus, and the second is still drawn over it. -/
theorem raised_window_is_covered : ¬ ∀ c, steps (step .release ⟨0,1,2⟩) [.create 0 0,.create 0 0,.focusWindow 0]
    ({} : Compositor smallScreen.toFrameBufferTarget) = some c → ShowsClicked .release c := by
  intro hclaim
  have hview : ((steps (step .release ⟨0,1,2⟩) [.create 0 0,.create 0 0,.focusWindow 0]
      ({} : Compositor smallScreen.toFrameBufferTarget)).map fun c =>
        (covering 0 0 c.windows).map fun w => (w.id,w.zIndex)) = some [(0,8),(1,7)] := by decide +kernel
  obtain ⟨c,hrun,hc⟩ := Option.map_eq_some_iff.mp hview
  have hmem : ∀ id z, (id,z) ∈ [(0,8),(1,7)] → ∃ w ∈ covering 0 0 c.windows, w.id = id ∧ w.zIndex = z := by
    intro id z hz
    rw [← hc] at hz
    obtain ⟨w,hw,heq⟩ := List.mem_map.mp hz
    exact ⟨w,hw,Prod.mk.inj heq⟩
  obtain ⟨w,hw,_,hz⟩ := hmem 0 8 (by simp)
  obtain ⟨u,hu,hid,hz'⟩ := hmem 1 7 (by simp)
  have hle := ((consistent_of_steps hrun).showsClicked_iff.mp (hclaim c hrun)).2 0 0 (by decide) (by decide) w hw u hu
    fun v hv => ?_
  · omega
  · have hpair : (v.id,v.zIndex) ∈ [(0,8),(1,7)] := hc ▸ List.mem_map_of_mem (f := fun w => (w.id,w.zIndex)) hv
    simp only [List.mem_cons,Prod.mk.injEq,List.not_mem_nil,or_false] at hpair
    omega

end Run
end MofuOS.Graphics.Focus
