import MofuOS.Rustspace.Terminal

/-! The terminal keeps the text. Its lines tile the last positions of the scrollback, and every line that
the text ends is made of whole lines of the terminal. -/
namespace MofuOS.Rustspace
open Lib

/-- The places of consecutive lines from a position on. -/
def spans (start : Nat) : List (List UInt8) → List LineMeta
  | [] => []
  | line :: lines => ⟨start,start + line.length⟩ :: spans (start + line.length) lines

section Spans
variable {start : Nat} {lines lines' : List (List UInt8)} {line : List UInt8}

@[simp] theorem length_spans : (spans start lines).length = lines.length := by
  induction lines generalizing start with
  | nil => rfl
  | cons line lines ih => rw [spans,List.length_cons,List.length_cons,ih]

theorem spans_append : spans start (lines ++ lines') = spans start lines ++ spans (start + lines.flatten.length) lines' := by
  induction lines generalizing start with
  | nil => rfl
  | cons line lines ih =>
    rw [List.cons_append,spans,spans,ih,List.flatten_cons,List.length_append,Nat.add_assoc]
    rfl

theorem spans_concat : spans start (lines ++ [line]) =
    spans start lines ++ [⟨start + lines.flatten.length,start + lines.flatten.length + line.length⟩] := spans_append

theorem spans_drop (k : Nat) :
    (spans start lines).drop k = spans (start + (lines.take k).flatten.length) (lines.drop k) := by
  have happend : spans start (lines.take k ++ lines.drop k) = _ := spans_append
  rw [List.take_append_drop] at happend
  by_cases hk : k ≤ lines.length
  · rw [happend,List.drop_left' (by rw [length_spans,List.length_take]; omega)]
  · rw [List.drop_eq_nil_of_le (by rw [length_spans]; omega),List.drop_eq_nil_of_le (by omega)]
    rfl

theorem getElem?_spans (i : Nat) : (spans start lines)[i]? = (lines[i]?).map fun line =>
    ⟨start + (lines.take i).flatten.length,start + (lines.take i).flatten.length + line.length⟩ := by
  induction lines generalizing start i with
  | nil => rfl
  | cons line lines ih =>
    cases i with
    | zero => rfl
    | succ i =>
      rw [spans,List.getElem?_cons_succ,List.getElem?_cons_succ,List.take_succ_cons,List.flatten_cons,List.length_append,ih,
        Nat.add_assoc]

end Spans

variable {max : Nat} [NeZero max] {width : Nat} {t : Terminal max} {start r : Nat} {lines : List (List UInt8)}
  {cur bytes : List UInt8}

/-- The terminal shows these lines, from a position to the end of the scrollback. -/
structure Terminal.Holds (t : Terminal max) (width start r : Nat) (lines : List (List UInt8)) : Prop where
  valid : t.scrollback.viewSize ≠ 0
  fixed : t.maxCharsPerLine = width
  shows : t.lines.Shows r (spans start lines)
  ends : start + lines.flatten.length = t.scrollback.absoluteFilled
  stands : Stands t.scrollback.written start lines.flatten
  short : ∀ line ∈ lines, line.length ≤ width

namespace Terminal.Holds

theorem currentRef (h : t.Holds width start r (lines ++ [cur])) : t.lines.currentRef =
    ⟨start + lines.flatten.length,start + lines.flatten.length + cur.length⟩ := by
  have hshows := h.shows
  rw [spans_concat] at hshows
  exact hshows.currentRef

theorem currentLineLen (h : t.Holds width start r (lines ++ [cur])) : t.currentLineLen = cur.length := by
  rw [Terminal.currentLineLen,h.currentRef,LineMeta.len]
  exact Nat.add_sub_cancel_left ..

/-- Bytes that fit are appended to the current line. -/
theorem writeHere (bytes : List UInt8) (h : t.Holds width start r (lines ++ [cur])) (hfit : cur.length + bytes.length ≤ width) :
    ∃ t', t.writeHere bytes = some (t',t'.scrollback.absoluteFilled) ∧ t'.Holds width start r (lines ++ [cur ++ bytes]) := by
  obtain ⟨scrollback,hrun,hview,habs,hwritten⟩ := Scrollback.writeBytes_eq bytes h.valid
  have hends := h.ends
  have hshows := h.shows
  have hstands := h.stands
  simp only [List.flatten_append,List.flatten_singleton,List.length_append] at hends hstands
  refine ⟨{ t with
    scrollback
    lines := t.lines.updateEnd (t.scrollback.absoluteFilled + bytes.length) },?_,?_⟩
  · rw [Terminal.writeHere,hrun]
    simp only [Option.map_some,habs]
  refine ⟨hview ▸ h.valid,h.fixed,?_,?_,?_,?_⟩
  · rw [spans_concat] at hshows ⊢
    have hlast := hshows.updateEnd (t.scrollback.absoluteFilled + bytes.length)
    have hend : start + lines.flatten.length + (cur ++ bytes).length = t.scrollback.absoluteFilled + bytes.length := by
      rw [List.length_append]
      omega
    rw [hend]
    exact hlast
  · simp only [List.flatten_append,List.flatten_singleton,List.length_append,habs]
    omega
  · simp only [List.flatten_append,List.flatten_singleton,hwritten,← List.append_assoc]
    have hrecord := hstands.record bytes
    rw [List.length_append,hends] at hrecord
    exact hrecord
  · intro line hl
    obtain hl | hl := List.mem_append.mp hl
    · exact h.short line (List.mem_append_left _ hl)
    · rw [List.mem_singleton.mp hl,List.length_append]
      exact hfit

/-- After a line feed an empty line follows, and the lines without a place have gone at the front. -/
theorem lineFeed (h : t.Holds width start r (lines ++ [cur])) :
    ∃ start' r', t.lineFeed.Holds width start' r' ((lines ++ [cur]).drop (lines.length + 2 - max) ++ [[]]) := by
  have hends := h.ends
  have hshows := h.shows
  rw [spans_concat] at hshows
  obtain ⟨r',hfeed⟩ := hshows.lineFeed t.scrollback.currentAbsolute
  rw [length_spans] at hfeed
  have hmax : 0 < max := Nat.pos_of_neZero max
  generalize hk : lines.length + 2 - max = k at hfeed ⊢
  have hkle : k ≤ (lines ++ [cur]).length := by
    rw [List.length_append,List.length_singleton]
    omega
  have hspans : spans start lines ++ [{ (⟨start + lines.flatten.length,start + lines.flatten.length + cur.length⟩ : LineMeta) with
      onePastLastPos := t.scrollback.currentAbsolute },.empty t.scrollback.currentAbsolute] =
      spans start ((lines ++ [cur]) ++ [[]]) := by
    have habs : start + lines.flatten.length + cur.length = t.scrollback.currentAbsolute := by
      rw [Scrollback.currentAbsolute,← hends]
      simp only [List.flatten_append,List.flatten_singleton,List.length_append,Nat.add_assoc]
    rw [spans_concat,spans_concat,List.append_assoc]
    simp only [List.flatten_append,List.flatten_singleton,List.length_append,List.length_nil,Nat.add_zero,← Nat.add_assoc,habs]
    rfl
  have hdrop : ((lines ++ [cur]) ++ [[]]).drop k = (lines ++ [cur]).drop k ++ [[]] := List.drop_append_of_le_length hkle
  have hflat : ((lines ++ [cur]).take k).flatten ++ ((lines ++ [cur]).drop k).flatten = (lines ++ [cur]).flatten := by
    rw [← List.flatten_append,List.take_append_drop]
  rw [hspans,spans_drop,hdrop,List.take_append_of_le_length hkle] at hfeed
  refine ⟨_,r',h.valid,h.fixed,hfeed,?_,?_,?_⟩
  · have hlen := congrArg List.length hflat
    rw [List.length_append] at hlen
    simp only [List.flatten_append,List.flatten_singleton,List.length_append,List.length_nil] at hends hlen ⊢
    simp only [Terminal.lineFeed]
    omega
  · have hstands := h.stands
    rw [← hflat] at hstands
    rw [List.flatten_append,List.flatten_singleton,List.append_nil]
    exact hstands.right
  · intro line hl
    obtain hl | hl := List.mem_append.mp hl
    · exact h.short line (List.mem_of_mem_drop hl)
    · rw [List.mem_singleton.mp hl]
      exact Nat.zero_le _

/-- A backspace takes the last byte of the current line. -/
theorem backspace (h : t.Holds width start r (lines ++ [cur])) : t.backspace.Holds width start r (lines ++ [cur.dropLast]) := by
  unfold Terminal.backspace
  rw [h.currentRef]
  by_cases hnil : cur = []
  · subst hnil
    rw [if_pos (by simp [LineMeta.isEmpty])]
    exact h
  obtain ⟨cur',b,hcur⟩ := (List.eq_nil_or_concat cur).resolve_left hnil
  rw [List.concat_eq_append] at hcur
  subst hcur
  have hpos : (⟨start + lines.flatten.length,start + lines.flatten.length + (cur' ++ [b]).length⟩ : LineMeta).isEmpty = false := by
    simp [LineMeta.isEmpty]
  have hends := h.ends
  have hshows := h.shows
  have hstands := h.stands
  simp only [List.flatten_append,List.flatten_singleton,List.length_append,List.length_singleton] at hends
  rw [List.flatten_append,List.flatten_singleton,← List.append_assoc] at hstands
  have hne : t.scrollback.absoluteFilled ≠ 0 := by omega
  simp only [hpos,Bool.false_eq_true,if_false,Scrollback.removeLastByte,if_neg hne,List.dropLast_concat]
  refine ⟨h.valid,h.fixed,?_,?_,?_,?_⟩
  · rw [spans_concat] at hshows ⊢
    have hlast := hshows.updateEnd (start + lines.flatten.length + cur'.length)
    simpa only [LineIndex.truncateLast,List.length_append,List.length_singleton,← Nat.add_assoc,Nat.add_sub_cancel] using hlast
  · simp only [List.flatten_append,List.flatten_singleton,List.length_append]
    omega
  · rw [List.flatten_append,List.flatten_singleton]
    exact hstands.left
  · intro line hl
    obtain hl | hl := List.mem_append.mp hl
    · exact h.short line (List.mem_append_left _ hl)
    · have hlen := h.short (cur' ++ [b]) (List.mem_append_right _ List.mem_cons_self)
      rw [List.length_append] at hlen
      rw [List.mem_singleton.mp hl]
      omega

end Terminal.Holds
/-- How the text lies in the lines: those of every ended line of the text, those before the current one
of the last, and the current one. -/
structure Sheet where
  ended : List (List (List UInt8)) := []
  wrapped : List (List UInt8) := []
  cur : List UInt8 := []

namespace Sheet

def before (s : Sheet) : List (List UInt8) := s.ended.flatten ++ s.wrapped

def text (s : Sheet) : Text := ⟨s.ended.map List.flatten,s.wrapped.flatten ++ s.cur⟩

end Sheet

/-- The lines one line of the text is broken into. Only the last of them may be empty. -/
def Broken (g : List (List UInt8)) : Prop := g ≠ [] ∧ ∀ line ∈ g.dropLast, line ≠ []

theorem Broken.concat {g : List (List UInt8)} (h : ∀ line ∈ g, line ≠ []) (cur : List UInt8) : Broken (g ++ [cur]) := by
  rw [Broken,List.dropLast_concat]
  exact ⟨by simp,h⟩

/-- The terminal shows the last lines of the sheet, all of them as long as there are places. -/
structure Terminal.Keeps (t : Terminal max) (width : Nat) (s : Sheet) : Prop where
  ended : ∀ g ∈ s.ended, Broken g
  wrapped : ∀ line ∈ s.wrapped, line ≠ []
  holds : ∃ dropped lines start r, s.before = dropped ++ lines ∧ (dropped ≠ [] → lines.length + 1 = max) ∧
    t.Holds width start r (lines ++ [s.cur])

namespace Terminal.Keeps
variable {s s' : Sheet}

theorem currentLineLen (h : t.Keeps width s) : t.currentLineLen = s.cur.length := by
  obtain ⟨dropped,lines,start,r,_,_,hh⟩ := h.holds
  exact hh.currentLineLen

theorem isEmpty (h : t.Keeps width s) : t.lines.currentRef.isEmpty = true ↔ s.cur = [] := by
  obtain ⟨dropped,lines,start,r,_,_,hh⟩ := h.holds
  rw [hh.currentRef,← List.length_eq_zero_iff]
  change (start + lines.flatten.length == start + lines.flatten.length + s.cur.length) = true ↔ _
  rw [beq_iff_eq]
  omega

theorem writeHere (bytes : List UInt8) (h : t.Keeps width s) (hfit : s.cur.length + bytes.length ≤ width) :
    ∃ t', t.writeHere bytes = some (t',t'.scrollback.absoluteFilled) ∧ t'.Keeps width { s with cur := s.cur ++ bytes } := by
  obtain ⟨dropped,lines,start,r,hbefore,hroom,hh⟩ := h.holds
  obtain ⟨t',hrun,hh'⟩ := hh.writeHere bytes hfit
  exact ⟨t',hrun,h.ended,h.wrapped,dropped,lines,start,r,hbefore,hroom,hh'⟩

/-- A line feed of the terminal wraps the text or ends a line of it. -/
theorem lineFeed (h : t.Keeps width s) (hended : ∀ g ∈ s'.ended, Broken g) (hwrapped : ∀ line ∈ s'.wrapped, line ≠ [])
    (hbefore' : s'.before = s.before ++ [s.cur]) (hcur : s'.cur = []) : t.lineFeed.Keeps width s' := by
  obtain ⟨dropped,lines,start,r,hbefore,hroom,hh⟩ := h.holds
  obtain ⟨start',r',hh'⟩ := hh.lineFeed
  have hle := hh.shows.le
  rw [length_spans,List.length_append,List.length_singleton] at hle
  refine ⟨hended,hwrapped,dropped ++ (lines ++ [s.cur]).take (lines.length + 2 - max),
    (lines ++ [s.cur]).drop (lines.length + 2 - max),start',r',?_,?_,by rw [hcur]; exact hh'⟩
  · rw [hbefore',hbefore,List.append_assoc,List.append_assoc,List.take_append_drop]
  · -- A line goes only when the places were all taken, and then they are taken again.
    intro hgone
    have hfull : lines.length + 1 = max := by
      by_contra hfree
      have hzero : lines.length + 2 - max = 0 := by omega
      have hnone : dropped = [] := by
        by_contra hdropped
        exact hfree (hroom hdropped)
      rw [hzero,hnone] at hgone
      exact hgone rfl
    rw [List.length_drop,List.length_append,List.length_singleton]
    omega

theorem wrap (h : t.Keeps width s) (hcur : s.cur ≠ []) : t.lineFeed.Keeps width ⟨s.ended,s.wrapped ++ [s.cur],[]⟩ := by
  refine h.lineFeed h.ended ?_ (List.append_assoc ..).symm rfl
  intro line hl
  obtain hl | hl := List.mem_append.mp hl
  · exact h.wrapped line hl
  · rw [List.mem_singleton.mp hl]
    exact hcur

theorem endLine (h : t.Keeps width s) : t.lineFeed.Keeps width ⟨s.ended ++ [s.wrapped ++ [s.cur]],[],[]⟩ := by
  refine h.lineFeed ?_ nofun ?_ rfl
  · intro g hg
    obtain hg | hg := List.mem_append.mp hg
    · exact h.ended g hg
    · rw [List.mem_singleton.mp hg]
      exact .concat h.wrapped _
  · simp [Sheet.before]

theorem backspace (h : t.Keeps width s) : t.backspace.Keeps width { s with cur := s.cur.dropLast } := by
  obtain ⟨dropped,lines,start,r,hbefore,hroom,hh⟩ := h.holds
  exact ⟨h.ended,h.wrapped,dropped,lines,start,r,hbefore,hroom,hh.backspace⟩

theorem clear (h : t.Keeps width s) : t.clear.Keeps width {} := by
  obtain ⟨_,_,_,_,_,_,hh⟩ := h.holds
  refine ⟨nofun,nofun,[],[],t.scrollback.currentAbsolute,0,rfl,fun h => absurd rfl h,hh.valid,hh.fixed,
    LineIndex.clear_shows _,rfl,nofun,?_⟩
  intro line hl
  rw [List.mem_singleton.mp hl]
  exact Nat.zero_le _

/-- Making room for a byte does not change the text. -/
private theorem ensureCurrentLineHasSpace (h : t.Keeps width s) (hw : 0 < width) :
    ∃ s', t.ensureCurrentLineHasSpace.Keeps width s' ∧ s'.text = s.text ∧ s'.cur.length < width := by
  have hfixed : t.maxCharsPerLine = width := by
    obtain ⟨_,_,_,_,_,_,hh⟩ := h.holds
    exact hh.fixed
  unfold Terminal.ensureCurrentLineHasSpace Terminal.currentLineRemainingSpace
  rw [h.currentLineLen,hfixed]
  by_cases hfull : s.cur.length ≥ width
  · rw [if_pos hfull,if_pos rfl]
    exact ⟨_,h.wrap (List.ne_nil_of_length_pos (by omega)),by simp [Sheet.text],hw⟩
  · rw [if_neg hfull,if_neg (by omega)]
    exact ⟨s,h,rfl,by omega⟩

private theorem remainingSpace (h : t.Keeps width s) (hlt : s.cur.length < width) :
    t.currentLineRemainingSpace = width - s.cur.length := by
  obtain ⟨_,_,_,_,_,_,hh⟩ := h.holds
  rw [Terminal.currentLineRemainingSpace,h.currentLineLen,hh.fixed,if_neg (by omega)]

private theorem splitAt_bounds {chunk : List UInt8} {space : Nat} (hs : 0 < space) (hc : space < chunk.length) :
    0 < Terminal.splitAt chunk space ∧ Terminal.splitAt chunk space ≤ space := by
  have hmin : min space chunk.length = space := Nat.min_eq_left hc.le
  unfold Terminal.splitAt
  simp only [hmin]
  cases hfind : Terminal.lastSpace chunk space with
  | none =>
    simp only
    rw [if_neg (by omega)]
    exact ⟨hs,Nat.le_refl _⟩
  | some i =>
    have hlt : i < space := List.mem_range.mp (List.mem_reverse.mp (List.mem_of_find?_eq_some hfind))
    simp only [Nat.succ_ne_zero,if_false]
    exact ⟨Nat.succ_pos i,hlt⟩

/-- Wrapping appends the chunk, whole and in order. -/
private theorem appendLoop {fuel : Nat} {chunk : List UInt8} (hw : 0 < width) (hfuel : chunk.length < fuel)
    (h : t.Keeps width s) :
    ∃ t' s', Terminal.appendLoop fuel chunk t = some t' ∧ t'.Keeps width s' ∧ s'.text = s.text.append chunk := by
  induction fuel generalizing chunk t s with
  | zero => exact absurd hfuel (Nat.not_lt_zero _)
  | succ fuel ih =>
    unfold Terminal.appendLoop
    split_ifs with hnil
    · exact ⟨t,s,rfl,h,by simp [hnil,Text.append]⟩
    obtain ⟨s₁,h₁,htext₁,hlt⟩ := h.ensureCurrentLineHasSpace hw
    simp only [h₁.remainingSpace hlt]
    split_ifs with hfits
    · obtain ⟨t₂,hrun,h₂⟩ := h₁.writeHere chunk (by omega)
      rw [hrun,Option.map_some]
      have htext₂ : Sheet.text { s₁ with cur := s₁.cur ++ chunk } = s.text.append chunk := by
        rw [← htext₁]
        simp [Sheet.text,Text.append]
      simp only [LineIndex.forceLineFeedIfNeeded]
      split_ifs with hforce
      · exact ⟨_,_,rfl,h₂.wrap (List.append_ne_nil_of_right_ne_nil _ hnil),by rw [← htext₂]; simp [Sheet.text]⟩
      · exact ⟨t₂,_,rfl,h₂,htext₂⟩
    · obtain ⟨hpos,hle⟩ := splitAt_bounds (show 0 < width - s₁.cur.length by omega) (Nat.not_le.mp hfits)
      generalize Terminal.splitAt chunk (width - s₁.cur.length) = split at hpos hle
      have htake : (chunk.take split).length = split := by
        rw [List.length_take]
        omega
      obtain ⟨t₂,hrun,h₂⟩ := h₁.writeHere (chunk.take split) (by rw [htake]; omega)
      rw [hrun,Option.bind_some]
      have hsome : s₁.cur ++ chunk.take split ≠ [] :=
        List.append_ne_nil_of_right_ne_nil _ (List.ne_nil_of_length_pos (by omega))
      obtain ⟨t',s',hrest,h',htext'⟩ := @ih _ _ (chunk.drop split) (by rw [List.length_drop]; omega) (h₂.wrap hsome)
      refine ⟨t',s',hrest,h',?_⟩
      rw [htext',← htext₁]
      simp [Sheet.text,Text.append]

private theorem flushSegment (segment : List UInt8) (hw : 0 < width) (h : t.Keeps width s) :
    ∃ t' s', t.flushSegment segment = some t' ∧ t'.Keeps width s' ∧ s'.text = s.text.append segment := by
  unfold Terminal.flushSegment
  split_ifs with hnil
  · exact ⟨t,s,rfl,h,by simp [hnil,Text.append]⟩
  · exact h.appendLoop hw (Nat.lt_succ_self _)

private theorem writeLoop (bytes segment : List UInt8) (hw : 0 < width) (h : t.Keeps width s) :
    ∃ t' s', Terminal.writeLoop bytes segment t = some t' ∧ t'.Keeps width s' ∧
      s'.text = (s.text.append segment).write bytes := by
  induction bytes generalizing segment t s with
  | nil =>
    obtain ⟨t',s',hrun,h',htext⟩ := h.flushSegment segment hw
    exact ⟨t',s',hrun,h',htext⟩
  | cons byte bytes ih =>
    unfold Terminal.writeLoop Text.write
    split_ifs with hfeed hreturn
    · obtain ⟨t₁,s₁,hrun,h₁,htext₁⟩ := h.flushSegment segment hw
      obtain ⟨t',s',hrest,h',htext'⟩ := ih [] h₁.endLine
      refine ⟨t',s',by rw [hrun,Option.bind_some]; exact hrest,h',?_⟩
      rw [htext',← htext₁]
      congr 1
      simp [Sheet.text,Text.append,Text.endLine]
    · obtain ⟨t₁,s₁,hrun,h₁,htext₁⟩ := h.flushSegment segment hw
      obtain ⟨t',s',hrest,h',htext'⟩ := ih [] h₁
      refine ⟨t',s',by rw [hrun,Option.bind_some]; exact hrest,h',?_⟩
      rw [htext',← htext₁]
      simp [Text.append]
    · obtain ⟨t',s',hrest,h',htext'⟩ := ih (segment ++ [byte]) h
      refine ⟨t',s',hrest,h',?_⟩
      rw [htext']
      simp [Text.append]

/-- Every call keeps the text as it was edited. -/
theorem exec {op : TerminalOp} (hw : 0 < width) (h : t.Keeps width s) :
    ∃ t' s', Rustspace.exec op t = some t' ∧ t'.Keeps width s' ∧ s'.text = s.text.edit t op := by
  cases op with
  | writeStr text =>
    obtain ⟨t',s',hrun,h',htext⟩ := h.writeLoop text [] hw
    exact ⟨t',s',hrun,h',by simpa [Text.edit,Text.append] using htext⟩
  | writeLine text =>
    obtain ⟨t',s',hrun,h',htext⟩ := h.writeLoop text [] hw
    refine ⟨_,_,by rw [Rustspace.exec,Terminal.writeLine,Terminal.writeBytesInternal,hrun]; rfl,h'.endLine,?_⟩
    have htext' : s'.text = s.text.write text := by simpa [Text.append] using htext
    rw [Text.edit,← htext']
    simp [Sheet.text,Text.endLine]
  | newline => exact ⟨_,_,rfl,h.endLine,by simp [Sheet.text,Text.edit,Text.endLine]⟩
  | backspace =>
    refine ⟨_,_,rfl,h.backspace,?_⟩
    unfold Text.edit
    split_ifs with hempty
    · rw [h.isEmpty] at hempty
      simp [Sheet.text,hempty]
    · rw [h.isEmpty] at hempty
      simp [Sheet.text,List.dropLast_append_of_ne_nil hempty]
  | clear => exact ⟨_,_,rfl,h.clear,rfl⟩

end Terminal.Keeps

/-- The bytes last written at the positions of a line. -/
def Terminal.lineBytes (t : Terminal max) (l : LineMeta) : List UInt8 :=
  (List.range l.len).map fun i => t.scrollback.written (l.firstPos + i)

/-- The bytes of the lines iter_logical gives. -/
def Terminal.shown (t : Terminal max) : List (List UInt8) :=
  (List.range t.lines.count).filterMap fun i => (t.lines.logicalLineForIndex i).map t.lineBytes

namespace Terminal.Holds

theorem logicalLine (h : t.Holds width start r lines) (hne : lines ≠ []) (i : Nat) :
    t.lines.logicalLineForIndex i = (lines[i]?).map fun line =>
      ⟨start + (lines.take i).flatten.length,start + (lines.take i).flatten.length + line.length⟩ := by
  have hspans : spans start lines ≠ [] := by
    rw [← List.length_pos_iff,length_spans]
    exact List.length_pos_iff.mpr hne
  rw [h.shows.logicalLineForIndex hspans,getElem?_spans]

theorem count (h : t.Holds width start r lines) : t.lines.count = lines.length := by
  rw [← h.shows.count,length_spans]

private theorem lineBytes (h : t.Holds width start r lines) {i : Nat} {line : List UInt8} (hi : lines[i]? = some line) :
    t.lineBytes ⟨start + (lines.take i).flatten.length,start + (lines.take i).flatten.length + line.length⟩ = line := by
  obtain ⟨hlt,rfl⟩ := List.getElem?_eq_some_iff.mp hi
  have hstands := h.stands
  rw [← List.take_append_drop i lines,List.drop_eq_getElem_cons hlt,List.flatten_append,List.flatten_cons] at hstands
  have hline := hstands.right.left
  apply List.ext_getElem
  · simp [Terminal.lineBytes,LineMeta.len]
  · intro j _ hj
    simpa [Terminal.lineBytes] using hline j hj

theorem shown (h : t.Holds width start r lines) (hne : lines ≠ []) : t.shown = lines := by
  have hline : ∀ i ∈ List.range lines.length,
      (t.lines.logicalLineForIndex i).map t.lineBytes = some (lines.getD i []) := by
    intro i hi
    have hget := List.getElem?_eq_getElem (List.mem_range.mp hi)
    rw [h.logicalLine hne,hget,Option.map_some,Option.map_some,h.lineBytes hget,List.getD_eq_getElem?_getD,hget,
      Option.getD_some]
  have hmap : (List.range lines.length).filterMap (fun i => some (lines.getD i [])) = _ := congrFun List.filterMap_eq_map _
  rw [Terminal.shown,h.count,List.filterMap_congr hline,hmap]
  apply List.ext_getElem
  · simp
  · intro i _ hi
    simp [hi]

end Terminal.Holds

/-- What the terminal shows of a text: its lines tile the last positions and are as long as they may be,
and what is shown is the end of the text, with every line that the text ends made of whole lines. Nothing
is missing in front as long as there are places for more lines. -/
structure Terminal.Shows (t : Terminal max) (width : Nat) (text : Text) : Prop where
  contiguous : ∀ i a b, t.lines.logicalLineForIndex i = some a → t.lines.logicalLineForIndex (i + 1) = some b →
    a.onePastLastPos = b.firstPos
  ends : ∃ a, t.lines.logicalLineForIndex (t.lines.count - 1) = some a ∧ a.onePastLastPos = t.scrollback.absoluteFilled
  short : ∀ i a, t.lines.logicalLineForIndex i = some a → a.firstPos ≤ a.onePastLastPos ∧ a.len ≤ width
  count : t.lines.count ≤ max
  suffix : t.shown.flatten <:+ text.bytes
  whole : ∃ (groups : List (List (List UInt8))) (dropped : List (List UInt8)), (∀ g ∈ groups, Broken g) ∧
    groups.map List.flatten = text.ended ++ [text.last] ∧ groups.flatten = dropped ++ t.shown ∧
    (t.lines.count < max → dropped = [])

theorem Terminal.Keeps.shows {s : Sheet} (h : t.Keeps width s) : t.Shows width s.text := by
  obtain ⟨dropped,lines,start,r,hbefore,hroom,hh⟩ := h.holds
  have hne : lines ++ [s.cur] ≠ [] := by simp
  have hshown := hh.shown hne
  have hgroups : (s.ended ++ [s.wrapped ++ [s.cur]]).flatten = dropped ++ t.shown := by
    rw [hshown,← List.append_assoc,← hbefore]
    simp [Sheet.before]
  have hbytes : (s.ended ++ [s.wrapped ++ [s.cur]]).map List.flatten = s.text.ended ++ [s.text.last] := by
    simp [Sheet.text]
  refine ⟨?_,?_,?_,?_,?_,_,_,?_,hbytes,hgroups,?_⟩
  · intro i a b ha hb
    rw [hh.logicalLine hne,Option.map_eq_some_iff] at ha hb
    obtain ⟨line,hline,rfl⟩ := ha
    obtain ⟨line',_,rfl⟩ := hb
    obtain ⟨hlt,rfl⟩ := List.getElem?_eq_some_iff.mp hline
    change _ = start + ((lines ++ [s.cur]).take (i + 1)).flatten.length
    rw [List.take_succ_eq_append_getElem hlt,List.flatten_append,List.flatten_singleton,List.length_append,Nat.add_assoc]
  · have hlast : (lines ++ [s.cur])[t.lines.count - 1]? = some s.cur := by
      rw [hh.count,List.length_append,List.length_singleton,Nat.add_sub_cancel]
      exact List.getElem?_concat_length ..
    refine ⟨_,by rw [hh.logicalLine hne,hlast,Option.map_some],?_⟩
    have hends := hh.ends
    rw [List.flatten_append,List.flatten_singleton,List.length_append] at hends
    change start + ((lines ++ [s.cur]).take (t.lines.count - 1)).flatten.length + s.cur.length = _
    rw [hh.count,List.length_append,List.length_singleton,Nat.add_sub_cancel,List.take_left,← hends,Nat.add_assoc]
  · intro i a ha
    rw [hh.logicalLine hne,Option.map_eq_some_iff] at ha
    obtain ⟨line,hline,rfl⟩ := ha
    have hlen := hh.short line (List.mem_of_getElem? hline)
    simp only [LineMeta.len]
    omega
  · rw [hh.count]
    have hle := hh.shows.le
    rwa [length_spans] at hle
  · have hflat : _ = dropped.flatten ++ t.shown.flatten := (congrArg List.flatten hgroups).trans List.flatten_append
    exact ⟨dropped.flatten,by rw [← hflat,Text.bytes,← hbytes,List.flatten_flatten]⟩
  · intro g hg
    obtain hg | hg := List.mem_append.mp hg
    · exact h.ended g hg
    · rw [List.mem_singleton.mp hg]
      exact .concat h.wrapped _
  · rw [hh.count,List.length_append,List.length_singleton]
    intro hlt
    by_contra hdropped
    exact absurd (hroom hdropped) hlt.ne

/-- A new terminal has no text. -/
private theorem new_keeps {scrollback : Scrollback} (hv : scrollback.viewSize ≠ 0) :
    (Terminal.new width scrollback : Terminal max).Keeps width {} := by
  refine ⟨nofun,nofun,[],[],scrollback.currentAbsolute,0,rfl,fun h => absurd rfl h,hv,rfl,LineIndex.clear_shows _,rfl,nofun,?_⟩
  intro line hl
  rw [List.mem_singleton.mp hl]
  exact Nat.zero_le _

/-- After all calls the terminal shows the text they wrote. -/
theorem steps_shows (ops : List TerminalOp) (scrollback : Scrollback) (hv : scrollback.viewSize ≠ 0) (hw : 1 ≤ width) :
    ∃ t text, steps step ops ((Terminal.new width scrollback : Terminal max),{}) = some (t,text) ∧ t.Shows width text := by
  have hstep : ∀ (op : TerminalOp) (s : Terminal max × Text), (∃ sheet, s.1.Keeps width sheet ∧ sheet.text = s.2) →
      ∃ s', step op s = some s' ∧ ∃ sheet, s'.1.Keeps width sheet ∧ sheet.text = s'.2 := by
    rintro op ⟨t,_⟩ ⟨sheet,h,rfl⟩
    obtain ⟨t',sheet',hrun,h',htext⟩ := @Terminal.Keeps.exec _ _ _ _ _ op hw h
    exact ⟨(t',sheet.text.edit t op),by rw [step,hrun]; rfl,sheet',h',htext⟩
  obtain ⟨⟨t,_⟩,hrun,sheet,h,rfl⟩ :=
    steps_total hstep (s := ((Terminal.new width scrollback : Terminal max),{})) ⟨{},new_keeps hv,rfl⟩
  exact ⟨t,_,hrun,h.shows⟩

/-- Two lines of at most three bytes hold the end of the text. -/
theorem steps_shows_two : ∃ (t : Terminal 2) (text : Text),
    steps step [.writeStr [97,32,98,99,10,100],.backspace,.writeLine [101]] (Terminal.new 3 ⟨4,0,0,fun _ => 0,fun _ => 0⟩,{}) =
      some (t,text) ∧ t.Shows 3 text :=
  @steps_shows 2 _ 3 _ ⟨4,0,0,fun _ => 0,fun _ => 0⟩ (by decide) (by decide)

end MofuOS.Rustspace
