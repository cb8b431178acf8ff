import MofuOS.Words
import Mathlib.Data.List.Basic

/-! Compositor::compose: the visible windows are clipped to the screen and copied to the framebuffer, row by
row, between the clearing and the drawing of the cursor. -/
namespace MofuOS.Graphics.Compose
open Lib

def framebufferBytesPerPixel : Nat := 4
def cursorSizeX : Int := 3
def cursorSizeY : Int := 10

structure FrameBufferTarget where
  width : UInt64
  height : UInt64
  pitch : UInt64
  pitch_ge : 4 * width.toNat ≤ pitch.toNat

/-- A window that CreateWindow has accepted, with the size of its front buffer in pixels. -/
structure PlacedWindow (fb : FrameBufferTarget) where
  x : Int32
  y : Int32
  width : UInt32
  height : UInt32
  isVisible : Bool
  width_fits : 1 ≤ width.toNat ∧ width.toNat ≤ fb.width.toNat
  height_fits : 1 ≤ height.toNat ∧ height.toNat ≤ fb.height.toNat

/-- A copy of count pixels, from a pixel of the front buffer to a byte of the framebuffer. -/
structure RowCopy where
  srcOffset : Nat
  dstOffset : Nat
  count : Nat
  deriving DecidableEq, Repr

structure Compositor (fb : FrameBufferTarget) where
  windows : List (PlacedWindow fb)
  mouse : Int32 × Int32
  mouseLastDrawn : Int32 × Int32
  cursorVisible : Bool

/-- What a composition reads and writes: the cursor pixels it clears, the rows it copies, the cursor pixels it draws. -/
structure Composed (fb : FrameBufferTarget) where
  cleared : List Nat
  copied : List (PlacedWindow fb × List RowCopy)
  cursor : List Nat

variable {fb : FrameBufferTarget} (p : Profile)

/-- The byte of a pixel in the framebuffer. -/
def pixelOffset (fb : FrameBufferTarget) (x y : Nat) : Outcome Nat := do
  let row ← unsigned p 32 (y * asU32 fb.pitch.toNat)
  let column ← unsigned p 32 (x * framebufferBytesPerPixel)
  unsigned p 32 (row + column)

/-- Where the drawn part of a span starts and ends on the screen. -/
def clip (position : Int32) (size : Int) (screen : Nat) : Outcome (Nat × Nat) := do
  let stop ← signed32 p (position.toInt + size)
  .ok (asU32 (max position.toInt 0),asU32 (min stop (asI32 screen)))

def drawCursor (fb : FrameBufferTarget) (cursor : Int32 × Int32) : Outcome (List Nat) := do
  let width := asU32 fb.width.toNat
  let height := asU32 fb.height.toNat
  if 0 ≤ cursor.1.toInt ∧ cursor.1.toInt < asI32 width ∧ 0 ≤ cursor.2.toInt ∧ cursor.2.toInt < asI32 height then
    let (startX,endX) ← clip p cursor.1 cursorSizeX width
    let (startY,endY) ← clip p cursor.2 cursorSizeY height
    let rows ← (List.range' startY (endY - startY)).mapM fun y =>
      (List.range' startX (endX - startX)).mapM fun x => pixelOffset p fb x y
    .ok rows.flatten
  else .ok []

/-- The part of a span that hangs over the left or the upper edge. -/
def hidden (position : Int32) : Outcome Nat :=
  if 0 < position.toInt then .ok 0 else (signed32 p (-position.toInt)).map asU32

def copyRow (w : PlacedWindow fb) (srcX srcY startX startY copyWidth y : Nat) : Outcome RowCopy := do
  let row ← unsigned p 32 (srcY + y)
  let rowStart ← unsigned p 32 (row * w.width.toNat)
  let srcOffset ← unsigned p 32 (rowStart + srcX)
  let dstRow ← unsigned p 32 (startY + y)
  let dstOffset ← pixelOffset p fb startX dstRow
  .ok ⟨srcOffset,dstOffset,copyWidth⟩

def composeWindow (w : PlacedWindow fb) : Outcome (List RowCopy) := do
  let (startX,endX) ← clip p w.x (asI32 w.width.toNat) fb.width.toNat
  let (startY,endY) ← clip p w.y (asI32 w.height.toNat) fb.height.toNat
  if endX ≤ startX ∨ endY ≤ startY then .ok []
  else
    let srcX ← hidden p w.x
    let srcY ← hidden p w.y
    (List.range (endY - startY)).mapM (copyRow p w srcX srcY startX startY (endX - startX))

def compose (c : Compositor fb) : Outcome (Composed fb) := do
  let cleared ← drawCursor p fb c.mouseLastDrawn
  let copied ← (c.windows.filter (·.isVisible)).mapM fun w => do
    let rows ← composeWindow p w
    .ok (w,rows)
  let cursor ← (if c.cursorVisible then drawCursor p fb c.mouse else .ok [])
  .ok ⟨cleared,copied,cursor⟩

/-- The framebuffer has fewer than 2^31 columns and rows, and its bytes are numbered by u32. -/
structure Addressable (fb : FrameBufferTarget) : Prop where
  width : fb.width.toNat < 2^31
  height : fb.height.toNat < 2^31
  bytes : fb.pitch.toNat * fb.height.toNat ≤ 2^32

/-- A span ends at or behind the edge of the screen, and the screen shows nothing of it. -/
def Misses (position size screen : Int) : Prop := 0 ≤ position + size ∧ min (position + size) screen ≤ max position 0

/-- Neither end of the window is beyond i32, and none is in front of the screen, unless the window misses the
screen along one of the axes. -/
structure WellPlaced (w : PlacedWindow fb) : Prop where
  right : w.x.toInt + w.width.toNat < 2^31
  bottom : w.y.toInt + w.height.toNat < 2^31
  ends : Misses w.x.toInt w.width.toNat fb.width.toNat ∨ Misses w.y.toInt w.height.toNat fb.height.toNat ∨
    (0 ≤ w.x.toInt + w.width.toNat ∧ 0 ≤ w.y.toInt + w.height.toNat)

/-- The rows stay inside the front buffer and the framebuffer, and their pixels are those of the window that are
on the screen. -/
structure CopiesWindow (w : PlacedWindow fb) (rows : List RowCopy) : Prop where
  reads : ∀ row ∈ rows, row.srcOffset + row.count ≤ w.width.toNat * w.height.toNat
  writes : ∀ row ∈ rows, row.dstOffset + 4 * row.count ≤ fb.pitch.toNat * fb.height.toNat
  pixels : ∀ src dst, (∃ row ∈ rows, ∃ i < row.count, src = row.srcOffset + i ∧ dst = row.dstOffset + 4 * i) ↔
    ∃ sx < fb.width.toNat, ∃ sy < fb.height.toNat, w.x.toInt ≤ sx ∧ (sx : Int) < w.x.toInt + w.width.toNat ∧
      w.y.toInt ≤ sy ∧ (sy : Int) < w.y.toInt + w.height.toNat ∧
      (src : Int) = (sy - w.y.toInt) * w.width.toNat + (sx - w.x.toInt) ∧ dst = sy * fb.pitch.toNat + 4 * sx

/-- What the composition reads and writes, for the windows that are visible. -/
structure InBounds (c : Compositor fb) (f : Composed fb) : Prop where
  windows : f.copied.map Prod.fst = c.windows.filter (·.isVisible)
  copies : ∀ w rows, (w,rows) ∈ f.copied → CopiesWindow w rows
  cleared : ∀ offset ∈ f.cleared, offset + 4 ≤ fb.pitch.toNat * fb.height.toNat
  cursor : ∀ offset ∈ f.cursor, offset + 4 ≤ fb.pitch.toNat * fb.height.toNat

/-- No arithmetic of the composition overflows, and it stays in bounds. -/
def ComposesInBounds (c : Compositor fb) : Prop := ∃ f, compose .dev c = .ok f ∧ compose p c = .ok f ∧ InBounds c f

section Lists
variable {α β : Type} {f : α → Outcome β} {g : α → β} {l : List α}

theorem mapM_ok (h : ∀ a ∈ l, f a = .ok (g a)) : l.mapM f = .ok (l.map g) := by
  induction l with
  | nil => rfl
  | cons a l ih =>
    rw [List.mapM_cons,h a List.mem_cons_self,ok_bind,ih fun b hb => h b (List.mem_cons_of_mem _ hb)]
    rfl

theorem mapM_mem {r : List β} (h : l.mapM f = .ok r) {a : α} (ha : a ∈ l) : ∃ b ∈ r, f a = .ok b := by
  induction l generalizing r with
  | nil => cases ha
  | cons a' l ih =>
    rw [List.mapM_cons] at h
    obtain ⟨b,hb,h⟩ := bind_eq_ok h
    obtain ⟨bs,hbs,h⟩ := bind_eq_ok h
    cases h
    cases ha with
    | head => exact ⟨b,List.mem_cons_self,hb⟩
    | tail _ ha =>
      obtain ⟨b',hb',hf⟩ := ih hbs ha
      exact ⟨b',List.mem_cons_of_mem _ hb',hf⟩

end Lists

section Span
variable {position : Int32} {size screen : Nat}

theorem asU32_of_nonneg {z : Int} (h : 0 ≤ z) (hlt : z < 2^32) : asU32 z = z.toNat := by
  rw [asU32,Int.emod_eq_of_lt h hlt]

theorem asU32_of_neg {z : Int} (h : z < 0) (hge : -2^32 ≤ z) : asU32 z = (z + 2^32).toNat := by
  rw [asU32,← Int.add_emod_right,Int.emod_eq_of_lt (by omega) (by omega)]

/-- A span that does not end in front of the screen. -/
theorem clip_of_nonneg (hlt : position.toInt + size < 2^31) (hge : 0 ≤ position.toInt + size) (hscreen : screen < 2^31) :
    clip p position size screen = .ok ((max position.toInt 0).toNat,(min (position.toInt + size) screen).toNat) := by
  have hpos := position.toInt_lt
  rw [clip,signed32_of_fits ⟨by omega,hlt⟩,ok_bind,asI32_of_lt hscreen,asU32_of_nonneg (by omega) (by omega),
    asU32_of_nonneg (by omega) (by omega)]

/-- The end of a span in front of the screen is taken for one far behind it. -/
theorem clip_of_neg (hneg : position.toInt + size < 0) (hscreen : screen < 2^31) :
    clip p position size screen = .ok (0,(position.toInt + size + 2^32).toNat) := by
  have hge := position.le_toInt
  rw [clip,signed32_of_fits ⟨by omega,by omega⟩,ok_bind,asI32_of_lt hscreen,asU32_of_nonneg (by omega) (by omega),
    asU32_of_neg (by omega) (by omega),Int.min_eq_left (by omega),Int.max_eq_right (by omega)]
  rfl

theorem clip_onScreen (position : Int32) (size screen : Nat) (hpos : 0 ≤ position.toInt) (hlt : position.toInt < screen) (hsize : size ≤ 2^30)
    (hscreen : screen ≤ 2^30) :
    ∃ start stop, (∀ p, clip p position size screen = .ok (start,stop)) ∧ stop ≤ screen :=
  ⟨_,_,fun p => clip_of_nonneg p (by omega) (by omega) (by omega),by omega⟩

theorem hidden_of_gt (h : -2^31 < position.toInt) : hidden p position = .ok (-position.toInt).toNat := by
  have hlt := position.toInt_lt
  rw [hidden]
  split_ifs with hpos
  · rw [Int.toNat_of_nonpos (by omega)]
  · rw [signed32_of_fits ⟨by omega,by omega⟩,Except.map,asU32_of_nonneg (by omega) (by omega)]

end Span

section Window
variable {w : PlacedWindow fb} {p : Profile}

/-- The rows of a window that does not end in front of the screen. -/
def rowsOf (w : PlacedWindow fb) : List RowCopy :=
  let startX := (max w.x.toInt 0).toNat
  let startY := (max w.y.toInt 0).toNat
  let endX := (min (w.x.toInt + w.width.toNat) fb.width.toNat).toNat
  let endY := (min (w.y.toInt + w.height.toNat) fb.height.toNat).toNat
  (List.range (endY - startY)).map fun y => ⟨((-w.y.toInt).toNat + y) * w.width.toNat + (-w.x.toInt).toNat,
    (startY + y) * fb.pitch.toNat + 4 * startX,endX - startX⟩

private theorem row_end_le {row rows column columns : Nat} (hrow : row < rows) (hcolumn : column ≤ columns) :
    row * columns + column ≤ columns * rows := by
  calc row * columns + column ≤ (row + 1) * columns := by rw [Nat.succ_mul]; omega
    _ ≤ columns * rows := by rw [Nat.mul_comm]; exact Nat.mul_le_mul_left _ hrow

variable (ha : Addressable fb)
include ha

/-- A screen with pixels has not more than 2^30 columns and rows. -/
theorem screen_le (hwidth : 0 < fb.width.toNat) (hheight : 0 < fb.height.toNat) : fb.width.toNat ≤ 2^30 ∧ fb.height.toNat ≤ 2^30 := by
  have hbytes : 4 * fb.width.toNat * fb.height.toNat ≤ 2^32 := Nat.le_trans (Nat.mul_le_mul_right _ fb.pitch_ge) ha.bytes
  have hwide := Nat.le_mul_of_pos_right (4 * fb.width.toNat) hheight
  have hhigh : 4 * fb.height.toNat ≤ 4 * fb.width.toNat * fb.height.toNat :=
    Nat.mul_le_mul_right _ (Nat.le_mul_of_pos_right 4 hwidth)
  omega

theorem area_le (w : PlacedWindow fb) : w.width.toNat * w.height.toNat ≤ 2^30 := by
  have hscreen : w.width.toNat * w.height.toNat ≤ fb.width.toNat * fb.height.toNat :=
    Nat.mul_le_mul w.width_fits.2 w.height_fits.2
  have hpitch : 4 * fb.width.toNat * fb.height.toNat ≤ fb.pitch.toNat * fb.height.toNat := Nat.mul_le_mul_right _ fb.pitch_ge
  have hbytes := ha.bytes
  rw [Nat.mul_assoc] at hpitch
  omega

/-- The byte of a pixel of the screen. -/
theorem pixelOffset_runs {x y : Nat} (hx : x < fb.width.toNat) (hy : y < fb.height.toNat) :
    pixelOffset p fb x y = .ok (y * fb.pitch.toNat + 4 * x) ∧
      y * fb.pitch.toNat + 4 * fb.width.toNat ≤ fb.pitch.toNat * fb.height.toNat := by
  have hle := row_end_le hy fb.pitch_ge
  have hbytes := ha.bytes
  have hcast : y * asU32 fb.pitch.toNat = y * fb.pitch.toNat := by
    cases y with
    | zero => rw [Nat.zero_mul,Nat.zero_mul]
    | succ y =>
      rw [Nat.succ_mul] at hle
      rw [asU32_of_lt (by omega)]
  have hcolumn : x * framebufferBytesPerPixel = 4 * x := Nat.mul_comm ..
  refine ⟨?_,hle⟩
  rw [pixelOffset,unsigned_mul (by rw [hcast]; omega),ok_bind,unsigned_mul (by rw [hcolumn]; omega),ok_bind,hcast,hcolumn]
  exact unsigned_add (by omega)

theorem copyRow_runs {srcX srcY startX startY copyWidth y : Nat} (hx : srcX < w.width.toNat) (hy : srcY + y < w.height.toNat)
    (hsx : startX < fb.width.toNat) (hsy : startY + y < fb.height.toNat) :
    copyRow p w srcX srcY startX startY copyWidth y =
      .ok ⟨(srcY + y) * w.width.toNat + srcX,(startY + y) * fb.pitch.toNat + 4 * startX,copyWidth⟩ := by
  have harea := area_le ha w
  have hrow := row_end_le hy (Nat.le_of_lt hx)
  have hheight := ha.height
  have hfits := w.height_fits.2
  rw [copyRow,unsigned_add (by omega),ok_bind,unsigned_mul (by omega),ok_bind,unsigned_add (by omega),ok_bind,
    unsigned_add (by omega),ok_bind,(pixelOffset_runs ha hsx hsy).1,ok_bind]

/-- A window whose ends are not in front of the screen. -/
theorem composeWindow_runs (hx : 0 ≤ w.x.toInt + w.width.toNat) (hy : 0 ≤ w.y.toInt + w.height.toNat)
    (hr : w.x.toInt + w.width.toNat < 2^31) (hb : w.y.toInt + w.height.toNat < 2^31)
    (hmx : ¬ Misses w.x.toInt w.width.toNat fb.width.toNat) (hmy : ¬ Misses w.y.toInt w.height.toNat fb.height.toNat) :
    composeWindow p w = .ok (rowsOf w) := by
  have hwidth := ha.width
  have hheight := ha.height
  have hwx := w.width_fits
  have hwy := w.height_fits
  simp only [Misses,not_and,Int.not_le] at hmx hmy
  have hmx := hmx hx
  have hmy := hmy hy
  rw [composeWindow,asI32_of_lt (by omega),asI32_of_lt (by omega),clip_of_nonneg p hr hx hwidth,ok_bind]
  simp only [clip_of_nonneg p hb hy hheight,ok_bind]
  rw [if_neg (by omega),hidden_of_gt p (by omega),ok_bind,hidden_of_gt p (by omega),ok_bind]
  refine mapM_ok fun y hy' => copyRow_runs ha ?_ ?_ ?_ ?_
  all_goals
    rw [List.mem_range] at hy'
    omega

omit ha in
theorem rowsOf_copiesWindow (hx : 0 ≤ w.x.toInt + w.width.toNat) (hy : 0 ≤ w.y.toInt + w.height.toNat)
    (hmx : ¬ Misses w.x.toInt w.width.toNat fb.width.toNat) : CopiesWindow w (rowsOf w) := by
  have hpitch := fb.pitch_ge
  simp only [Misses,not_and,Int.not_le] at hmx
  have hmx := hmx hx
  simp only [rowsOf]
  refine ⟨fun row hrow => ?_,fun row hrow => ?_,fun src dst => ⟨?_,?_⟩⟩
  · obtain ⟨y,hy',rfl⟩ := List.mem_map.mp hrow
    rw [List.mem_range] at hy'
    dsimp only
    rw [Nat.add_assoc]
    exact row_end_le (by omega) (by omega)
  · obtain ⟨y,hy',rfl⟩ := List.mem_map.mp hrow
    rw [List.mem_range] at hy'
    dsimp only
    rw [Nat.add_assoc]
    exact row_end_le (by omega) (by omega)
  · rintro ⟨row,hrow,i,hi,rfl,rfl⟩
    obtain ⟨y,hy',rfl⟩ := List.mem_map.mp hrow
    rw [List.mem_range] at hy'
    dsimp only at hi ⊢
    refine ⟨(max w.x.toInt 0).toNat + i,by omega,(max w.y.toInt 0).toNat + y,by omega,by omega,by omega,by omega,by omega,?_,
      by omega⟩
    have hrows : (((max w.y.toInt 0).toNat + y : Nat) : Int) - w.y.toInt = ((-w.y.toInt).toNat + y : Nat) := by omega
    have hcolumns : (((max w.x.toInt 0).toNat + i : Nat) : Int) - w.x.toInt = ((-w.x.toInt).toNat + i : Nat) := by omega
    rw [hrows,hcolumns,Nat.add_assoc]
    norm_cast
  · rintro ⟨sx,hsx,sy,hsy,hleft,hright,htop,hbottom,hsrc,hdst⟩
    refine ⟨_,List.mem_map.mpr ⟨sy - (max w.y.toInt 0).toNat,List.mem_range.mpr (by omega),rfl⟩,
      sx - (max w.x.toInt 0).toNat,by dsimp only; omega,?_,?_⟩
    · have hrows : (sy : Int) - w.y.toInt = ((-w.y.toInt).toNat + (sy - (max w.y.toInt 0).toNat) : Nat) := by omega
      have hcolumns : (sx : Int) - w.x.toInt = ((-w.x.toInt).toNat + (sx - (max w.x.toInt 0).toNat) : Nat) := by omega
      rw [hrows,hcolumns] at hsrc
      dsimp only
      rw [Nat.add_assoc]
      exact_mod_cast hsrc
    · dsimp only
      rw [Nat.add_sub_cancel' (by omega : (max w.y.toInt 0).toNat ≤ sy)]
      omega

omit ha in
theorem copiesWindow_nil (hm : Misses w.x.toInt w.width.toNat fb.width.toNat ∨ Misses w.y.toInt w.height.toNat fb.height.toNat) :
    CopiesWindow w [] := by
  refine ⟨by simp,by simp,fun src dst => ⟨by simp,?_⟩⟩
  rintro ⟨sx,hsx,sy,hsy,hleft,hright,htop,hbottom,-⟩
  rcases hm with ⟨-,hm⟩ | ⟨-,hm⟩
  all_goals omega

/-- A window that misses the screen along the horizontal axis is skipped. -/
theorem composeWindow_misses_x (hr : w.x.toInt + w.width.toNat < 2^31) (hb : w.y.toInt + w.height.toNat < 2^31)
    (hm : Misses w.x.toInt w.width.toNat fb.width.toNat) : composeWindow p w = .ok [] := by
  have hwx := w.width_fits
  have hwy := w.height_fits
  have hwidth := ha.width
  have hheight := ha.height
  obtain ⟨hx,hm⟩ := hm
  rw [composeWindow,asI32_of_lt (by omega),asI32_of_lt (by omega),clip_of_nonneg p hr hx hwidth,ok_bind]
  by_cases hy : 0 ≤ w.y.toInt + w.height.toNat
  · simp only [clip_of_nonneg p hb hy hheight,ok_bind]
    rw [if_pos (by omega)]
  · simp only [clip_of_neg p (Int.not_le.mp hy) hheight,ok_bind]
    rw [if_pos (by omega)]

theorem composeWindow_misses_y (hr : w.x.toInt + w.width.toNat < 2^31) (hb : w.y.toInt + w.height.toNat < 2^31)
    (hm : Misses w.y.toInt w.height.toNat fb.height.toNat) : composeWindow p w = .ok [] := by
  have hwx := w.width_fits
  have hwy := w.height_fits
  have hwidth := ha.width
  have hheight := ha.height
  obtain ⟨hy,hm⟩ := hm
  rw [composeWindow,asI32_of_lt (by omega),asI32_of_lt (by omega)]
  by_cases hx : 0 ≤ w.x.toInt + w.width.toNat
  · rw [clip_of_nonneg p hr hx hwidth,ok_bind]
    simp only [clip_of_nonneg p hb hy hheight,ok_bind]
    rw [if_pos (by omega)]
  · rw [clip_of_neg p (Int.not_le.mp hx) hwidth,ok_bind]
    simp only [clip_of_nonneg p hb hy hheight,ok_bind]
    rw [if_pos (by omega)]

theorem composeWindow_wellPlaced (hw : WellPlaced w) : ∃ rows, (∀ p, composeWindow p w = .ok rows) ∧ CopiesWindow w rows := by
  by_cases hmx : Misses w.x.toInt w.width.toNat fb.width.toNat
  · exact ⟨[],fun p => composeWindow_misses_x ha hw.right hw.bottom hmx,copiesWindow_nil (.inl hmx)⟩
  by_cases hmy : Misses w.y.toInt w.height.toNat fb.height.toNat
  · exact ⟨[],fun p => composeWindow_misses_y ha hw.right hw.bottom hmy,copiesWindow_nil (.inr hmy)⟩
  obtain hm | hm | ⟨hx,hy⟩ := hw.ends
  · exact absurd hm hmx
  · exact absurd hm hmy
  · exact ⟨rowsOf w,fun p => composeWindow_runs ha hx hy hw.right hw.bottom hmx hmy,rowsOf_copiesWindow hx hy hmx⟩

omit ha in
theorem copyRow_dev {srcX srcY startX startY copyWidth y : Nat} {row : RowCopy}
    (h : copyRow .dev w srcX srcY startX startY copyWidth y = .ok row) :
    row.srcOffset = (srcY + y) * w.width.toNat + srcX ∧ row.count = copyWidth := by
  obtain ⟨bufferRow,h1,h⟩ := bind_eq_ok h
  obtain ⟨rowStart,h2,h⟩ := bind_eq_ok h
  obtain ⟨srcOffset,h3,h⟩ := bind_eq_ok h
  obtain ⟨dstRow,-,h⟩ := bind_eq_ok h
  obtain ⟨dstOffset,-,h⟩ := bind_eq_ok h
  cases h
  have hsum : (srcOffset : Int) = (srcY + y) * w.width.toNat + srcX := by
    rw [← (unsigned_dev h3).1,← (unsigned_dev h2).1,← (unsigned_dev h1).1]
  exact ⟨by exact_mod_cast hsum,rfl⟩

/-- A window that ends in front of the screen along one axis, and does not miss it along the other, is copied
from pixels that are not in its buffer. -/
theorem wellPlaced_of_composeWindow {rows : List RowCopy} (h : composeWindow .dev w = .ok rows) (hc : CopiesWindow w rows) :
    WellPlaced w := by
  have hwx := w.width_fits
  have hwy := w.height_fits
  have hwidth := ha.width
  have hheight := ha.height
  have harea := area_le ha w
  rw [composeWindow,asI32_of_lt (by omega),asI32_of_lt (by omega)] at h
  obtain ⟨⟨startX,endX⟩,hX,h⟩ := bind_eq_ok h
  obtain ⟨⟨startY,endY⟩,hY,h⟩ := bind_eq_ok h
  obtain ⟨_,hstopX,_⟩ := bind_eq_ok hX
  obtain ⟨_,hstopY,_⟩ := bind_eq_ok hY
  have hr := (signed32_dev hstopX).2.2
  have hb := (signed32_dev hstopY).2.2
  refine ⟨hr,hb,?_⟩
  by_contra hends
  simp only [not_or,Misses,not_and,Int.not_le] at hends
  obtain ⟨hmx,hmy,hends⟩ := hends
  -- no part of the clipped window is empty, so its first row is copied
  have hspan : startX < endX ∧ startY < endY ∧ (w.x.toInt + w.width.toNat < 0 → 2^31 ≤ endX - startX) := by
    by_cases hx : 0 ≤ w.x.toInt + w.width.toNat
    all_goals by_cases hy : 0 ≤ w.y.toInt + w.height.toNat
    · exact absurd hy (by have := hends hx; omega)
    · rw [clip_of_nonneg _ hr hx hwidth] at hX
      rw [clip_of_neg _ (Int.not_le.mp hy) hheight] at hY
      cases hX
      cases hY
      have := hmx hx
      have := w.y.le_toInt
      omega
    · rw [clip_of_neg _ (Int.not_le.mp hx) hwidth] at hX
      rw [clip_of_nonneg _ hb hy hheight] at hY
      cases hX
      cases hY
      have := hmy hy
      have := w.x.le_toInt
      omega
    · rw [clip_of_neg _ (Int.not_le.mp hx) hwidth] at hX
      rw [clip_of_neg _ (Int.not_le.mp hy) hheight] at hY
      cases hX
      cases hY
      have := w.x.le_toInt
      have := w.y.le_toInt
      omega
  obtain ⟨hspanX,hspanY,hfar⟩ := hspan
  simp only at h
  rw [if_neg (by omega)] at h
  obtain ⟨srcX,hsrcX,h⟩ := bind_eq_ok h
  obtain ⟨srcY,hsrcY,h⟩ := bind_eq_ok h
  obtain ⟨row,hrow,hcopy⟩ := mapM_mem h (List.mem_range.mpr (Nat.sub_pos_of_lt hspanY))
  obtain ⟨hsrc,hcount⟩ := copyRow_dev hcopy
  have hreads := hc.reads row hrow
  rw [hsrc,hcount,Nat.add_zero] at hreads
  by_cases hx : 0 ≤ w.x.toInt + w.width.toNat
  · have hy := hends hx
    have hgt : -2^31 < w.y.toInt := by
      rw [hidden,if_neg (by omega)] at hsrcY
      cases hneg : signed32 .dev (-w.y.toInt) with
      | error e => rw [hneg] at hsrcY; cases hsrcY
      | ok z => have := signed32_dev hneg; omega
    rw [hidden_of_gt _ hgt] at hsrcY
    cases hsrcY
    have hbeyond : w.height.toNat * w.width.toNat ≤ (-w.y.toInt).toNat * w.width.toNat := Nat.mul_le_mul_right _ (by omega)
    rw [Nat.mul_comm w.height.toNat] at hbeyond
    omega
  · have := hfar (by omega)
    omega

end Window

section Cursor
variable {p : Profile} (ha : Addressable fb)
include ha

theorem drawCursor_runs (cursor : Int32 × Int32) : ∃ offsets, (∀ p, drawCursor p fb cursor = .ok offsets) ∧
    ∀ offset ∈ offsets, offset + 4 ≤ fb.pitch.toNat * fb.height.toNat := by
  have hwidth := ha.width
  have hheight := ha.height
  simp only [drawCursor,asU32_of_lt (show fb.width.toNat < 2^32 by omega),asU32_of_lt (show fb.height.toNat < 2^32 by omega),
    asI32_of_lt hwidth,asI32_of_lt hheight]
  split_ifs with hin
  · obtain ⟨hx,hx',hy,hy'⟩ := hin
    have hpitch : fb.pitch.toNat ≤ fb.pitch.toNat * fb.height.toNat := Nat.le_mul_of_pos_right _ (by omega)
    have hpitch' : 4 * fb.height.toNat ≤ fb.pitch.toNat * fb.height.toNat :=
      Nat.mul_le_mul_right _ (by have := fb.pitch_ge; omega)
    have hbytes := ha.bytes
    have hge := fb.pitch_ge
    obtain ⟨startX,endX,hclipX,hendX⟩ := clip_onScreen cursor.1 3 fb.width.toNat
      hx hx' (by omega) (by omega)
    obtain ⟨startY,endY,hclipY,hendY⟩ := clip_onScreen cursor.2 10 fb.height.toNat
      hy hy' (by omega) (by omega)
    have hinside : ∀ y ∈ List.range' startY (endY - startY), ∀ x ∈ List.range' startX (endX - startX),
        x < fb.width.toNat ∧ y < fb.height.toNat := by
      intro y hy x hx
      rw [List.mem_range'_1] at hx hy
      omega
    refine ⟨((List.range' startY (endY - startY)).map fun y => (List.range' startX (endX - startX)).map fun x =>
      y * fb.pitch.toNat + 4 * x).flatten,fun p => ?_,?_⟩
    · have hcopies := mapM_ok fun y hy => mapM_ok fun x hx =>
        (pixelOffset_runs (p := p) ha (hinside y hy x hx).1 (hinside y hy x hx).2).1
      rw [show clip p cursor.1 cursorSizeX fb.width.toNat = _ from hclipX p,ok_bind]
      simp only [show clip p cursor.2 cursorSizeY fb.height.toNat = _ from hclipY p,ok_bind,hcopies]
    · intro offset hoffset
      obtain ⟨row,hrow,hoffset⟩ := List.mem_flatten.mp hoffset
      obtain ⟨y,hy,rfl⟩ := List.mem_map.mp hrow
      obtain ⟨x,hx,rfl⟩ := List.mem_map.mp hoffset
      have := (pixelOffset_runs (p := .dev) ha (hinside y hy x hx).1 (hinside y hy x hx).2).2
      have := (hinside y hy x hx).1
      omega
  · exact ⟨[],fun p => rfl,by simp⟩

end Cursor

section Composition
variable {p : Profile} {c : Compositor fb}

theorem ComposesInBounds.window (h : ComposesInBounds p c) {w : PlacedWindow fb} (hw : w ∈ c.windows) (hv : w.isVisible) :
    ∃ rows, composeWindow .dev w = .ok rows ∧ CopiesWindow w rows := by
  obtain ⟨f,hdev,-,hf⟩ := h
  obtain ⟨cleared,-,hdev⟩ := bind_eq_ok hdev
  obtain ⟨copied,hcopied,hdev⟩ := bind_eq_ok hdev
  obtain ⟨cursor,-,hdev⟩ := bind_eq_ok hdev
  cases hdev
  obtain ⟨⟨w',rows⟩,hmem,hrows⟩ := mapM_mem hcopied (List.mem_filter.mpr ⟨hw,hv⟩)
  obtain ⟨rows',hrows',hpair⟩ := bind_eq_ok hrows
  cases hpair
  exact ⟨rows,hrows',hf.copies w rows hmem⟩

private theorem mapM_windows {l : List (PlacedWindow fb)}
    (h : ∀ w ∈ l, ∃ rows, (∀ p, composeWindow p w = .ok rows) ∧ CopiesWindow w rows) :
    ∃ copied, (∀ p, (l.mapM fun w => do
        let rows ← composeWindow p w
        .ok (w,rows)) = .ok copied) ∧ copied.map Prod.fst = l ∧ ∀ w rows, (w,rows) ∈ copied → CopiesWindow w rows := by
  induction l with
  | nil => exact ⟨[],fun _ => rfl,rfl,by simp⟩
  | cons w l ih =>
    obtain ⟨rows,hruns,hcopies⟩ := h w List.mem_cons_self
    obtain ⟨copied,hcopied,hfst,hall⟩ := ih fun w' hw' => h w' (List.mem_cons_of_mem _ hw')
    refine ⟨(w,rows) :: copied,fun p => ?_,by rw [List.map_cons,hfst],fun w' rows' hmem => ?_⟩
    · rw [List.mapM_cons,hruns,ok_bind,ok_bind,hcopied]
      rfl
    · obtain heq | hmem := List.mem_cons.mp hmem
      · cases heq
        exact hcopies
      · exact hall w' rows' hmem

/-- On an addressable framebuffer the composition stays in bounds for exactly the well-placed windows. -/
theorem composes_iff (ha : Addressable fb) (c : Compositor fb) :
    ComposesInBounds p c ↔ ∀ w ∈ c.windows, w.isVisible → WellPlaced w := by
  constructor
  · intro h w hw hv
    obtain ⟨rows,hrows,hcopies⟩ := h.window hw hv
    exact wellPlaced_of_composeWindow ha hrows hcopies
  · intro h
    obtain ⟨cleared,hcleared,hclearedIn⟩ := drawCursor_runs ha c.mouseLastDrawn
    obtain ⟨drawn,hdrawn,hdrawnIn⟩ := drawCursor_runs ha c.mouse
    obtain ⟨copied,hcopied,hfst,hcopies⟩ := mapM_windows (l := c.windows.filter (·.isVisible)) fun w hw =>
      composeWindow_wellPlaced ha (h w (List.mem_filter.mp hw).1 (List.mem_filter.mp hw).2)
    have hruns : ∀ p, compose p c = .ok ⟨cleared,copied,if c.cursorVisible then drawn else []⟩ := by
      intro p
      rw [compose,hcleared,ok_bind,hcopied,ok_bind]
      split_ifs
      · rw [hdrawn,ok_bind]
      · rfl
    refine ⟨_,hruns .dev,hruns p,hfst,hcopies,hclearedIn,fun offset hoffset => ?_⟩
    dsimp only at hoffset
    split_ifs at hoffset
    · exact hdrawnIn offset hoffset
    · cases hoffset

end Composition

/-- A screen of 800 by 600 pixels. -/
def screen : FrameBufferTarget := ⟨800,600,3200,by decide⟩

/-- A window of 100 by 1 pixels at the given place, and a composition of it alone. -/
def windowAt (x y : Int32) : PlacedWindow screen := ⟨x,y,100,1,true,by decide,by decide⟩
def alone (w : PlacedWindow screen) : Compositor screen := ⟨[w],(400,300),(0,0),true⟩

theorem left_edge_composes : ComposesInBounds .release (alone (windowAt (-40) 10)) :=
  (composes_iff ⟨by decide,by decide,by decide⟩ _).2 (by
    intro w hw _
    rw [List.mem_singleton.mp hw]
    exact ⟨by decide,by decide,.inr (.inr (by decide))⟩)

/-- A window 100 pixels wide, at 200 pixels to the left of the screen. -/
theorem left_of_screen_copies_wild :
    composeWindow .dev (windowAt (-200) 10) = .ok [⟨200,32000,2^32 - 100⟩] ∧ ¬ ComposesInBounds .release (alone (windowAt (-200) 10)) := by
  have hrows : composeWindow .dev (windowAt (-200) 10) = .ok [⟨200,32000,2^32 - 100⟩] := by decide +kernel
  refine ⟨hrows,fun h => ?_⟩
  obtain ⟨rows,hrows',hcopies⟩ := h.window List.mem_cons_self rfl
  rw [hrows] at hrows'
  cases hrows'
  exact absurd (hcopies.reads _ List.mem_cons_self) (by decide)

end MofuOS.Graphics.Compose
