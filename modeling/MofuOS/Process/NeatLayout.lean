import MofuOS.Process.TrackedRegions

/-! A layout whose regions are separate and cover nothing that is not mapped. Mapping frames that are not
there and unmapping a range leave it so, and a failure to map leaves it as it was. -/
namespace MofuOS.Process
open Memory

namespace ProcessMemoryLayout
variable {F : Type} {lo start size : Nat} {layout layout' : ProcessMemoryLayout F}

/-- What holds of the part of an address space from lo on. -/
structure Neat (lo : Nat) (layout : ProcessMemoryLayout F) : Prop where
  positive : ∀ r ∈ layout.regions, 0 < r.sizeBytes
  separate : layout.regions.Pairwise (Separate lo)
  mapped : ∀ r ∈ layout.regions, ∀ page, lo ≤ page * pageSize → Touches r.startVirt r.endVirt page → layout.table page ≠ none

section Unmap

theorem unmapRegion_table (page : Nat) : (layout.unmapRegion start size).2.table page = layout.table page ∨
    (layout.unmapRegion start size).2.table page = none ∧ Touches start (start + size) page := by
  unfold unmapRegion
  cases carve start (start + size) layout.regions with
  | none => exact .inl rfl
  | some found =>
    by_cases h : size ≠ 0 ∧ Touches start (start + size) page
    · exact .inr ⟨if_pos h,h.2⟩
    · exact .inl (if_neg h)

/-- What is mapped after a range is unmapped was mapped before. -/
theorem unmapRegion_mono {page : Nat} {entry : PageTableEntry F}
    (h : (layout.unmapRegion start size).2.table page = some entry) : layout.table page = some entry := by
  obtain heq | ⟨hnone,_⟩ := @unmapRegion_table F start size layout page
  · rw [← heq,h]
  · rw [h] at hnone
    cases hnone

theorem Neat.unmapRegion (h : layout.Neat lo) (hlo : lo ≤ start) (hstart : pageSize ∣ start) (hsize : pageSize ∣ size) :
    (layout.unmapRegion start size).2.Neat lo := by
  unfold ProcessMemoryLayout.unmapRegion
  cases hcarve : carve start (start + size) layout.regions with
  | none => exact h
  | some found =>
    obtain ⟨region,rest⟩ := found
    obtain ⟨before,after,hregions,hcover,hcover',hrest⟩ := carve_some hcarve
    have hmem : region ∈ layout.regions := by simp [hregions]
    obtain ⟨k,rfl⟩ := hstart
    obtain ⟨n,rfl⟩ := hsize
    refine ⟨?_,separate_carve h.separate hlo (Nat.le_add_right ..) hcarve,?_⟩
    · intro r hr
      rw [hrest] at hr
      simp only [List.mem_append] at hr
      obtain (hr | hr) | hr := hr
      · exact h.positive r (by simp [hregions,hr])
      · have := mem_pieces hr
        simp only [MappedMemoryRegion.endVirt] at *
        omega
      · exact h.positive r (by simp [hregions,hr])
    · intro r hr page hpage htouch
      have hother : ∀ r ∈ before ++ after, r.endVirt ≤ region.startVirt ∨ region.endVirt ≤ r.startVirt ∨
          (r.endVirt < lo ∧ region.endVirt < lo) := by
        intro r hr
        have hsep := h.separate
        rw [hregions] at hsep
        obtain ⟨_,htail,hcross⟩ := List.pairwise_append.mp hsep
        obtain hr | hr := List.mem_append.mp hr
        · have := (hcross r hr region List.mem_cons_self).2
          omega
        · have := ((List.pairwise_cons.mp htail).1 r hr).2
          omega
      have hapart : ¬ (pageSize * n ≠ 0 ∧ Touches (pageSize * k) (pageSize * k + pageSize * n) page) := by
        rw [hrest] at hr
        simp only [List.mem_append] at hr
        obtain (hr | hr) | hr := hr
        · have := hother r (by simp [hr])
          unfold Touches pageSize at *
          omega
        · have := mem_pieces hr
          unfold Touches pageSize at *
          omega
        · have := hother r (by simp [hr])
          unfold Touches pageSize at *
          omega
      have hold : layout.table page ≠ none := by
        rw [hrest] at hr
        simp only [List.mem_append] at hr
        obtain (hr | hr) | hr := hr
        · exact h.mapped r (by simp [hregions,hr]) page hpage htouch
        · refine h.mapped region hmem page hpage ?_
          have := mem_pieces hr
          unfold Touches at *
          omega
        · exact h.mapped r (by simp [hregions,hr]) page hpage htouch
      exact fun hnone => hold ((if_neg hapart).symm.trans hnone)

end Unmap

section Map
variable [DecidableEq F] {pageFlags : PageTableFlags} {ownership : FrameOwnership} {room : Nat → Bool} {frames : List F}
  {table table' : PageTable F} {first k : Nat}

/-- The entries with the frames placed on the pages from first on. -/
def placed (first : Nat) (frames : List F) (pageFlags : PageTableFlags) (table : PageTable F) : PageTable F := fun page =>
  if first ≤ page then
    (frames[page - first]?).elim (table page) fun frame => some ⟨frame,{ pageFlags with userAccessible := true }⟩
  else table page

omit [DecidableEq F] in
theorem placed_nil : placed first [] pageFlags table = table := by
  funext page
  simp [placed]

omit [DecidableEq F] in
theorem placed_cons (frame : F) : placed (first + 1) frames pageFlags
    (Function.update table first (some ⟨frame,{ pageFlags with userAccessible := true }⟩)) =
      placed first (frame :: frames) pageFlags table := by
  funext page
  unfold placed
  obtain hlt | rfl | hgt := Nat.lt_trichotomy page first
  · rw [if_neg (by omega),if_neg (by omega),Function.update_of_ne (by omega)]
  · rw [if_neg (by omega),if_pos (Nat.le_refl _),Function.update_self,Nat.sub_self]
    rfl
  · have hidx : page - first = page - (first + 1) + 1 := by omega
    rw [if_pos (by omega),if_pos (by omega),Function.update_of_ne (by omega),hidx,List.getElem?_cons_succ]

section Placed
variable {page : Nat} {entry : PageTableEntry F}

omit [DecidableEq F] in
theorem placed_cases (h : placed first frames pageFlags table page = some entry) :
    table page = some entry ∨ first ≤ page ∧ frames[page - first]? = some entry.frame := by
  unfold placed at h
  split_ifs at h with hle
  · cases hframe : frames[page - first]? with
    | none =>
      rw [hframe] at h
      exact .inl h
    | some frame =>
      rw [hframe] at h
      exact .inr ⟨hle,by rw [← Option.some.inj h]⟩
  · exact .inl h

omit [DecidableEq F] in
theorem placed_new {i : Nat} (hi : i < frames.length) : placed first frames pageFlags table (first + i) =
    some ⟨frames[i],{ pageFlags with userAccessible := true }⟩ := by
  rw [placed,if_pos (Nat.le_add_right ..),Nat.add_sub_cancel_left,List.getElem?_eq_getElem hi]
  rfl

end Placed

/-- None of the frames is on the page that it is to be placed on. -/
def Fresh (first : Nat) (frames : List F) (table : PageTable F) : Prop :=
  ∀ (i : Nat) (entry : PageTableEntry F), table (first + i) = some entry → frames[i]? ≠ some entry.frame

private theorem mapLoop_spec (hfresh : Fresh (first + k) frames table) (hback : ∀ page,
    unmapUserRegion ⟨first * pageSize,k * pageSize,pageFlags,.borrowed⟩ table page = table' page) :
    (mapLoop (first * pageSize) pageFlags room k frames table).1 = true ∧
        (mapLoop (first * pageSize) pageFlags room k frames table).2 = placed (first + k) frames pageFlags table ∧
        (∀ i < frames.length, table (first + k + i) = none) ∨
      (mapLoop (first * pageSize) pageFlags room k frames table).1 = false ∧
        (mapLoop (first * pageSize) pageFlags room k frames table).2 = table' := by
  induction frames generalizing k table with
  | nil => exact .inl ⟨rfl,placed_nil.symm,fun _ hi => absurd hi (Nat.not_lt_zero _)⟩
  | cons frame frames ih =>
    have hpage : (first * pageSize + k * pageSize) / pageSize = first + k := by
      rw [← Nat.add_mul,Nat.mul_div_cancel _ (by decide)]
    rw [mapLoop,hpage]
    cases hmap : mapSpecificFrame (first + k) frame pageFlags (room (first + k)) table with
    | none => exact .inr ⟨rfl,funext hback⟩
    | some next =>
      obtain ⟨hnone,rfl⟩ := mapSpecificFrame_cases hmap
      have hfree : table (first + k) = none := by
        refine hnone.resolve_right ?_
        rintro ⟨existing,hexisting,rfl⟩
        exact hfresh 0 existing hexisting rfl
      have hfresh' : Fresh (first + (k + 1)) frames
          (Function.update table (first + k) (some ⟨frame,{ pageFlags with userAccessible := true }⟩)) := by
        intro i entry hentry
        rw [Function.update_of_ne (by omega)] at hentry
        have hidx : first + (k + 1) + i = first + k + (i + 1) := by omega
        rw [hidx] at hentry
        exact hfresh (i + 1) entry hentry
      have hback' : ∀ page, unmapUserRegion ⟨first * pageSize,(k + 1) * pageSize,pageFlags,.borrowed⟩
          (Function.update table (first + k) (some ⟨frame,{ pageFlags with userAccessible := true }⟩)) page = table' page := by
        intro page
        rw [← hback page,unmapUserRegion_pages,unmapUserRegion_pages]
        by_cases hlast : page = first + k
        · rw [hlast,if_pos (by omega),if_neg (by omega),hfree]
        · rw [Function.update_of_ne hlast]
          exact if_congr (by omega) rfl rfl
      obtain ⟨hok,hplaced,hnext⟩ | hfail := ih hfresh' hback'
      · refine .inl ⟨hok,hplaced.trans (placed_cons frame),?_⟩
        intro i hi
        cases i with
        | zero => exact hfree
        | succ i =>
          have hi' := hnext i (Nat.lt_of_succ_lt_succ hi)
          rw [Function.update_of_ne (by omega)] at hi'
          rw [← hi']
          congr 1
          omega
      · exact .inr hfail

omit [DecidableEq F] in
private theorem neat_placed (h : layout.Neat lo) (hlo : lo ≤ first * pageSize) (hframes : frames ≠ [])
    (hnone : ∀ i < frames.length, layout.table (first + i) = none) {regions : List MappedMemoryRegion}
    (hregions : regions = trackRegion ⟨first * pageSize,frames.length * pageSize,pageFlags,ownership⟩ layout.regions) :
    (⟨placed first frames pageFlags layout.table,regions⟩ : ProcessMemoryLayout F).Neat lo ∧
      Covers regions (first * pageSize) (first * pageSize + frames.length * pageSize) ∧
      ∀ c d, Covers layout.regions c d → Covers regions c d := by
  have hlength := List.length_pos_iff.mpr hframes
  have hapart : ∀ r ∈ layout.regions,
      r.endVirt ≤ first * pageSize ∨ first * pageSize + frames.length * pageSize ≤ r.startVirt := by
    intro r hr
    by_contra hmeets
    rw [not_or] at hmeets
    -- a page that the region and the new range share would be mapped already
    have hpage : ∃ i < frames.length, Touches r.startVirt r.endVirt (first + i) := by
      have hpositive := h.positive r hr
      refine ⟨r.startVirt / pageSize - first,?_,?_⟩ <;> unfold Touches pageSize MappedMemoryRegion.endVirt at * <;> omega
    obtain ⟨i,hi,htouch⟩ := hpage
    refine h.mapped r hr (first + i) ?_ htouch (hnone i hi)
    rw [Nat.add_mul]
    omega
  obtain ⟨hsep,hpos,hcovers,hkeep,htouch⟩ := trackRegion_spec h.separate h.positive
    (show lo ≤ (⟨first * pageSize,frames.length * pageSize,pageFlags,ownership⟩ : MappedMemoryRegion).startVirt from hlo)
    (Nat.mul_pos hlength (by decide)) (Nat.dvd_mul_left ..) (Nat.dvd_add (Nat.dvd_mul_left ..) (Nat.dvd_mul_left ..)) hapart
  rw [← hregions] at hsep hpos hcovers hkeep htouch
  refine ⟨⟨hpos,hsep,?_⟩,hcovers,hkeep⟩
  intro r hr page hlo' hpage
  change placed first frames pageFlags layout.table page ≠ none
  unfold placed
  obtain hnew | ⟨r',hr',hold⟩ := htouch r hr page hpage
  · obtain ⟨hle,hlt⟩ := touches_pages.mp hnew
    rw [if_pos hle,List.getElem?_eq_getElem (by omega)]
    exact Option.some_ne_none _
  · have hmapped := h.mapped r' hr' page hlo' hold
    split_ifs
    · cases frames[page - first]? with
      | none => exact hmapped
      | some frame => exact Option.some_ne_none _
    · exact hmapped

/-- Frames that are not there are all mapped and their range is covered, or nothing changes. -/
theorem Neat.mapFrames (h : layout.Neat lo) (hlo : lo ≤ first * pageSize) (hfresh : Fresh first frames layout.table) :
    (layout.mapFrames (first * pageSize) frames pageFlags ownership room).1 = true ∧
        (layout.mapFrames (first * pageSize) frames pageFlags ownership room).2.table = placed first frames pageFlags layout.table ∧
        (∀ i < frames.length, layout.table (first + i) = none) ∧
        (layout.mapFrames (first * pageSize) frames pageFlags ownership room).2.Neat lo ∧
        (frames ≠ [] → Covers (layout.mapFrames (first * pageSize) frames pageFlags ownership room).2.regions
          (first * pageSize) (first * pageSize + frames.length * pageSize)) ∧
        (∀ c d, Covers layout.regions c d →
          Covers (layout.mapFrames (first * pageSize) frames pageFlags ownership room).2.regions c d) ∨
      (layout.mapFrames (first * pageSize) frames pageFlags ownership room).1 = false ∧
        (layout.mapFrames (first * pageSize) frames pageFlags ownership room).2 = layout := by
  unfold ProcessMemoryLayout.mapFrames
  by_cases hnil : frames = []
  · subst hnil
    exact .inl ⟨rfl,placed_nil.symm,fun _ hi => absurd hi (Nat.not_lt_zero _),h,fun hne => absurd rfl hne,fun _ _ hc => hc⟩
  rw [if_neg hnil]
  have hback : ∀ page, unmapUserRegion ⟨first * pageSize,0 * pageSize,pageFlags,.borrowed⟩ layout.table page = layout.table page := by
    intro page
    rw [unmapUserRegion_pages,if_neg (by omega)]
  have hspec : (mapLoop (first * pageSize) pageFlags room 0 frames layout.table).1 = true ∧ _ ∨ _ :=
    mapLoop_spec (by rwa [Nat.add_zero]) hback
  generalize mapLoop (first * pageSize) pageFlags room 0 frames layout.table = mapped at hspec
  obtain ⟨ok,table⟩ := mapped
  obtain ⟨rfl,rfl,hnone⟩ | ⟨rfl,rfl⟩ := hspec
  · obtain ⟨hneat,hcovers,hkeep⟩ := neat_placed h hlo hnil hnone rfl
    exact .inl ⟨rfl,rfl,hnone,hneat,fun _ => hcovers,hkeep⟩
  · exact .inr ⟨rfl,rfl⟩

end Map

/-- Ranges, each with its start and size, are unmapped one after the other. -/
def unmapAll (ranges : List (Nat × Nat)) (layout : ProcessMemoryLayout F) : ProcessMemoryLayout F :=
  ranges.foldl (fun layout range => (layout.unmapRegion range.1 range.2).2) layout

end ProcessMemoryLayout
end MofuOS.Process
