import MofuOS.Graphics.Compose

/-! The windows that a composition copies as they are on the screen, where arithmetic may wrap around. -/
namespace MofuOS.Graphics.Compose
open Lib
variable {fb : FrameBufferTarget} {p : Profile} {w : PlacedWindow fb}

/-- A span beside the screen, whose end i32 can hold. -/
def Beside (position size screen : Int) : Prop := Misses position size screen ∧ position + size < 2^31

/-- A span that ends neither in front of the screen nor beyond i32. -/
def Reaches (position size : Int) : Prop := 0 ≤ position + size ∧ position + size < 2^31

/-- Where overflow is checked both ends of the window are in i32. The window is beside the screen along one of the axes,
or reaches it along both. -/
structure Drawable (p : Profile) (w : PlacedWindow fb) : Prop where
  checked : p.checks = true → w.x.toInt + w.width.toNat < 2^31 ∧ w.y.toInt + w.height.toNat < 2^31
  ends : Beside w.x.toInt w.width.toNat fb.width.toNat ∨ Beside w.y.toInt w.height.toNat fb.height.toNat ∨
    (Reaches w.x.toInt w.width.toNat ∧ Reaches w.y.toInt w.height.toNat)

section Clip
variable {position : Int32} {size screen start stop : Nat}

theorem clip_of_unchecked (hp : ¬ p.checks = true) (position : Int32) (size : Int) (screen : Nat) : ∃ r, clip p position size screen = .ok r := by
  unfold clip signed32
  split_ifs <;> exact ⟨_,rfl⟩

theorem clip_of_beside (h : Beside position.toInt size screen) (hscreen : screen < 2^31) :
    ∃ start stop, clip p position size screen = .ok (start,stop) ∧ stop ≤ start := by
  obtain ⟨⟨hge,hmiss⟩,hlt⟩ := h
  exact ⟨_,_,clip_of_nonneg p hlt hge hscreen,by omega⟩

/-- A clipped span is empty only beside the screen. -/
theorem beside_of_clip (h : clip p position size screen = .ok (start,stop)) (hle : stop ≤ start) (hpos : 0 < size)
    (hsize : size ≤ 2^30) (hscreen : screen < 2^31) : Beside position.toInt size screen := by
  have hge := position.le_toInt
  have hlt := position.toInt_lt
  obtain hneg | hnonneg := Int.lt_or_le (position.toInt + size) 0
  · rw [clip_of_neg p hneg hscreen] at h
    cases h
    omega
  obtain hfits | hover := Int.lt_or_le (position.toInt + size) (2^31)
  · rw [clip_of_nonneg p hfits hnonneg hscreen] at h
    cases h
    exact ⟨⟨hnonneg,by omega⟩,hfits⟩
  -- an end beyond i32 wraps around to one in front of the screen, which is taken for one far behind it
  unfold clip signed32 at h
  rw [if_neg (by omega)] at h
  split_ifs at h
  · cases h
  rw [ok_bind,asI32_of_lt hscreen] at h
  obtain ⟨hstart,hstop⟩ := Prod.mk.inj (Except.ok.inj h)
  have hwrapped : (position.toInt + size).bmod (2^32) = position.toInt + size - 2^32 := by
    rw [Int.bmod_def]
    omega
  rw [hwrapped,Int.min_eq_left (by omega),asU32_of_neg (by omega) (by omega)] at hstop
  rw [asU32_of_nonneg (by omega) (by omega)] at hstart
  omega

end Clip
section Window
variable {rows : List RowCopy} (ha : Addressable fb)

theorem copyRow_count {srcX srcY startX startY copyWidth y : Nat} {row : RowCopy}
    (h : copyRow p w srcX srcY startX startY copyWidth y = .ok row) : row.count = copyWidth := by
  obtain ⟨_,_,h⟩ := bind_eq_ok h
  obtain ⟨_,_,h⟩ := bind_eq_ok h
  obtain ⟨_,_,h⟩ := bind_eq_ok h
  obtain ⟨_,_,h⟩ := bind_eq_ok h
  obtain ⟨_,_,h⟩ := bind_eq_ok h
  cases h
  rfl

include ha

/-- A screen with room for a window has pixels. -/
theorem screen_le_of_window (w : PlacedWindow fb) : fb.width.toNat ≤ 2^30 ∧ fb.height.toNat ≤ 2^30 :=
  screen_le ha (Nat.le_trans w.width_fits.1 w.width_fits.2) (Nat.le_trans w.height_fits.1 w.height_fits.2)

/-- A window beside the screen is skipped. -/
theorem composeWindow_beside (hw : Drawable p w) (hbeside : Beside w.x.toInt w.width.toNat fb.width.toNat ∨
    Beside w.y.toInt w.height.toNat fb.height.toNat) : composeWindow p w = .ok [] := by
  obtain ⟨hwidth,hheight⟩ := screen_le_of_window ha w
  have hwx := w.width_fits
  have hwy := w.height_fits
  by_cases hp : p.checks = true
  · obtain ⟨hr,hb⟩ := hw.checked hp
    obtain hx | hy := hbeside
    · exact composeWindow_misses_x ha hr hb hx.1
    · exact composeWindow_misses_y ha hr hb hy.1
  obtain ⟨⟨startX,endX⟩,hX⟩ := clip_of_unchecked hp w.x w.width.toNat fb.width.toNat
  obtain ⟨⟨startY,endY⟩,hY⟩ := clip_of_unchecked hp w.y w.height.toNat fb.height.toNat
  have hempty : endX ≤ startX ∨ endY ≤ startY := by
    refine hbeside.imp (fun hx => ?_) fun hy => ?_
    · obtain ⟨start,stop,hclip,hle⟩ := clip_of_beside (p := p) hx ha.width
      cases hX.symm.trans hclip
      exact hle
    · obtain ⟨start,stop,hclip,hle⟩ := clip_of_beside (p := p) hy ha.height
      cases hY.symm.trans hclip
      exact hle
  rw [composeWindow,asI32_of_lt (by omega),asI32_of_lt (by omega),hX,ok_bind]
  simp only [hY,ok_bind]
  rw [if_pos hempty]

theorem composeWindow_drawable (hw : Drawable p w) : ∃ rows, composeWindow p w = .ok rows ∧ CopiesWindow w rows := by
  have hreach : ∀ (hx : Reaches w.x.toInt w.width.toNat) (hy : Reaches w.y.toInt w.height.toNat),
      ∃ rows, composeWindow p w = .ok rows ∧ CopiesWindow w rows := by
    intro hx hy
    obtain ⟨rows,hrows,hcopies⟩ := composeWindow_wellPlaced ha ⟨hx.2,hy.2,.inr (.inr ⟨hx.1,hy.1⟩)⟩
    exact ⟨rows,hrows p,hcopies⟩
  obtain hx | hy | ⟨hx,hy⟩ := hw.ends
  · exact ⟨[],composeWindow_beside ha hw (.inl hx),copiesWindow_nil (.inl hx.1)⟩
  · exact ⟨[],composeWindow_beside ha hw (.inr hy),copiesWindow_nil (.inr hy.1)⟩
  · exact hreach hx hy

/-- A window that is copied as it is on the screen is drawable. -/
theorem drawable_of_composeWindow (h : composeWindow p w = .ok rows) (hc : CopiesWindow w rows) : Drawable p w := by
  obtain ⟨hwidth,hheight⟩ := screen_le_of_window ha w
  have hwx := w.width_fits
  have hwy := w.height_fits
  have hscreen := ha.width
  have hscreen' := ha.height
  rw [composeWindow,asI32_of_lt (by omega),asI32_of_lt (by omega)] at h
  obtain ⟨⟨startX,endX⟩,hX,h⟩ := bind_eq_ok h
  obtain ⟨⟨startY,endY⟩,hY,h⟩ := bind_eq_ok h
  refine ⟨fun hp => ?_,?_⟩
  · obtain ⟨_,hstopX,_⟩ := bind_eq_ok hX
    obtain ⟨_,hstopY,_⟩ := bind_eq_ok hY
    cases p with
    | dev => exact ⟨(signed32_dev hstopX).2.2,(signed32_dev hstopY).2.2⟩
    | release => cases hp
  dsimp only at h
  by_cases hempty : endX ≤ startX ∨ endY ≤ startY
  · obtain hx | hy := hempty
    · exact .inl (beside_of_clip hX hx hwx.1 (by omega) hscreen)
    · exact .inr (.inl (beside_of_clip hY hy hwy.1 (by omega) hscreen'))
  · rw [if_neg hempty] at h
    obtain ⟨srcX,_,h⟩ := bind_eq_ok h
    obtain ⟨srcY,_,h⟩ := bind_eq_ok h
    obtain ⟨row,hrow,hcopy⟩ := mapM_mem h (List.mem_range.mpr (by omega : 0 < endY - startY))
    have hcount := copyRow_count hcopy
    obtain ⟨sx,hsx,sy,hsy,hpixel⟩ := (hc.pixels _ _).mp ⟨row,hrow,0,by omega,rfl,rfl⟩
    unfold Reaches
    omega

end Window
end MofuOS.Graphics.Compose
