import MofuOS.Graphics.FocusSteps
import Mathlib.Data.List.ReduceOption

/-! The mouse on a screen with pixels: it stays there, and a click finds the topmost of the visible windows that cover
its pixel. -/
namespace MofuOS.Graphics.Focus
open Lib Events Compose
open Windows (invalidWindowId)

/-- A framebuffer with pixels, all of whose bytes u32 numbers. -/
structure Screen extends FrameBufferTarget where
  addressable : Addressable toFrameBufferTarget
  width_pos : 0 < width.toNat
  height_pos : 0 < height.toNat

theorem Screen.width_le (screen : Screen) : screen.width.toNat ≤ 2^30 ∧ screen.height.toNat ≤ 2^30 :=
  screen_le screen.addressable screen.width_pos screen.height_pos

section HitTest

/-- The window shows the pixel, if it is not behind others. -/
def Covers {fb : FrameBufferTarget} (x y : Int) (w : PlacedWindow fb) : Prop :=
  w.x.toInt ≤ x ∧ x < w.x.toInt + w.width.toNat ∧ w.y.toInt ≤ y ∧ y < w.y.toInt + w.height.toNat

instance {fb : FrameBufferTarget} (x y : Int) (w : PlacedWindow fb) : Decidable (Covers x y w) :=
  inferInstanceAs (Decidable (_ ∧ _))

/-- The visible windows at a pixel, in the order of the table. -/
def covering {fb : FrameBufferTarget} (x y : Int) (windows : List (Window fb)) : List (Window fb) :=
  windows.filter fun w => w.isVisible && decide (Covers x y w.toPlacedWindow)

variable {screen : Screen} {p : Profile} {keys : KeyCodes} {c : Compositor screen.toFrameBufferTarget}
  {windows : List (Window screen.toFrameBufferTarget)} {x y : Int}
  (hx : 0 ≤ x ∧ x < screen.width.toNat) (hy : 0 ≤ y ∧ y < screen.height.toNat)
include hx hy

theorem contains_eq (w : Window screen.toFrameBufferTarget) : contains p x y w = .ok (decide (Covers x y w.toPlacedWindow)) := by
  have hscreen := screen.width_le
  have hwidth := w.width_fits
  have hheight := w.height_fits
  have hleft := w.x.le_toInt
  have htop := w.y.le_toInt
  have hout : ∀ b : Bool, (b = true ↔ Covers x y w.toPlacedWindow) →
      (.ok b : Outcome Bool) = .ok (decide (Covers x y w.toPlacedWindow)) := by
    intro b hb
    cases b with
    | false => rw [decide_eq_false fun h => Bool.false_ne_true (hb.mpr h)]
    | true => rw [decide_eq_true (hb.mp rfl)]
  unfold contains
  rw [asI32_of_lt (by omega),asI32_of_lt (by omega)]
  by_cases h1 : x < w.x.toInt
  · rw [if_pos h1]
    exact hout _ ⟨fun h => absurd h Bool.false_ne_true,fun h => absurd h.1 (Int.not_le.mpr h1)⟩
  rw [if_neg h1,signed32_of_fits ⟨by omega,by omega⟩,ok_bind]
  by_cases h2 : w.x.toInt + w.width.toNat ≤ x
  · rw [if_pos h2]
    exact hout _ ⟨fun h => absurd h Bool.false_ne_true,fun h => absurd h.2.1 (Int.not_lt.mpr h2)⟩
  rw [if_neg h2]
  by_cases h3 : y < w.y.toInt
  · rw [if_pos h3]
    exact hout _ ⟨fun h => absurd h Bool.false_ne_true,fun h => absurd h.2.2.1 (Int.not_le.mpr h3)⟩
  rw [if_neg h3,signed32_of_fits ⟨by omega,by omega⟩,ok_bind]
  exact hout _ ⟨fun h => ⟨Int.not_lt.mp h1,Int.not_le.mp h2,Int.not_lt.mp h3,of_decide_eq_true h⟩,
    fun h => decide_eq_true h.2.2.2⟩

/-- A click finds the topmost window at its pixel, the last one of several. -/
theorem windowAt_eq : windowAt p x y windows = .ok ((maxByKey (·.zIndex) (covering x y windows)).map (·.id)) := by
  have hfound : (windows.filter (·.isVisible)).mapM (fun w => do
      let inside ← contains p x y w
      .ok (if inside then some w else none)) =
        (.ok ((windows.filter (·.isVisible)).map fun w => if Covers x y w.toPlacedWindow then some w else none) : Outcome _) := by
    refine mapM_ok fun w _ => ?_
    rw [contains_eq hx hy,ok_bind]
    simp only [decide_eq_true_eq]
  have hreduce : ∀ l : List (Window screen.toFrameBufferTarget),
      ((l.filter (·.isVisible)).map fun w => if Covers x y w.toPlacedWindow then some w else none).reduceOption =
        covering x y l := by
    intro l
    induction l with
    | nil => rfl
    | cons w l ih =>
      unfold covering at ih ⊢
      by_cases hvisible : w.isVisible = true <;> by_cases hcovers : Covers x y w.toPlacedWindow <;>
        simp [hvisible,hcovers,ih]
  rw [windowAt,hfound,ok_bind,hreduce]

theorem clickTarget_runs (c : Compositor screen.toFrameBufferTarget) : ∃ target, c.clickTarget p x y = .ok target := by
  unfold Compositor.clickTarget
  obtain ⟨stays,hstays⟩ : ∃ stays, c.clickStays p x y = .ok stays := by
    unfold Compositor.clickStays
    split_ifs
    · exact ⟨_,rfl⟩
    cases c.windows[c.currentlyFocusedWindow]? with
    | none => exact ⟨_,rfl⟩
    | some w =>
      dsimp only
      split_ifs
      · exact ⟨_,contains_eq hx hy w⟩
      · exact ⟨_,rfl⟩
  rw [hstays,ok_bind]
  split_ifs
  · exact ⟨_,rfl⟩
  · exact ⟨_,windowAt_eq hx hy⟩

end HitTest

section Mouse
variable {screen : Screen} {p : Profile} {keys : KeyCodes} {c : Compositor screen.toFrameBufferTarget}

/-- The mouse is on the screen. -/
def OnScreen (c : Compositor screen.toFrameBufferTarget) : Prop :=
  (0 ≤ c.mouseX ∧ c.mouseX < screen.width.toNat) ∧ 0 ≤ c.mouseY ∧ c.mouseY < screen.height.toNat

theorem moveMouse_runs {position : Int} {size : Nat} (hposition : 0 ≤ position ∧ position < size) (hsize : size ≤ 2^30)
    (delta : Int16) : ∃ moved, moveMouse p position delta size = .ok moved ∧ 0 ≤ moved ∧ moved < size := by
  have hle := delta.le_toInt
  have hlt := delta.toInt_lt
  refine ⟨max 0 (min (position + delta.toInt) (size - 1)),?_,by omega,by omega⟩
  rw [moveMouse,signed32_of_fits ⟨by omega,by omega⟩,ok_bind,asU32_of_lt (by omega),asI32_of_lt (by omega),
    signed32_of_fits ⟨by omega,by omega⟩,ok_bind,if_neg (by omega)]

/-- Where an input event goes is always found, and the mouse stays on the screen. -/
theorem aim_runs (p : Profile) (keys : KeyCodes) (h : OnScreen c) (input : Input) : ∃ mouseX mouseY target, c.aim p keys input = .ok (mouseX,mouseY,target) ∧
    OnScreen { c with mouseX, mouseY } := by
  cases input with
  | mouse value extra =>
    obtain ⟨mouseX,hx,honX⟩ := moveMouse_runs (p := p) h.1 screen.width_le.1 (decodeMouse (.new .mouseEvent value extra)).xDelta
    obtain ⟨mouseY,hy,honY⟩ := moveMouse_runs (p := p) h.2 screen.width_le.2 (decodeMouse (.new .mouseEvent value extra)).yDelta
    obtain ⟨target,htarget⟩ : ∃ target, (if (decodeMouse (.new .mouseEvent value extra)).buttons ≠ 0 then
        c.clickTarget p mouseX mouseY else .ok none) = .ok target := by
      split_ifs
      · exact clickTarget_runs honX honY c
      · exact ⟨_,rfl⟩
    refine ⟨mouseX,mouseY,target,?_,honX,honY⟩
    rw [Compositor.aim]
    simp only [hx,hy,htarget,ok_bind]
  | _ => exact ⟨_,_,_,rfl,h⟩

end Mouse
end MofuOS.Graphics.Focus
