import MofuOS.Process.AddressSpace

/-! When the tracked regions say which pages are mapped. -/
namespace MofuOS.Process
open Memory

variable {a b page : Nat} {regions rest : List MappedMemoryRegion} {region merged r r' : MappedMemoryRegion}

namespace Covers

theorem nil_iff : Covers [] a b ↔ False := by simp [Covers]

theorem cons_iff : Covers (r :: regions) a b ↔ r.startVirt ≤ a ∧ b ≤ r.endVirt ∨ Covers regions a b := by
  simp [Covers]

theorem append_iff {front : List MappedMemoryRegion} :
    Covers (front ++ regions) a b ↔ Covers front a b ∨ Covers regions a b := by
  simp only [Covers,List.mem_append,or_and_right,exists_or]

end Covers

/-- Whole pages, and at least one. -/
structure Aligned (r : MappedMemoryRegion) : Prop where
  start : pageSize ∣ r.startVirt
  size : pageSize ∣ r.sizeBytes
  positive : 0 < r.sizeBytes

/-- Sorted by start, and made of whole pages. -/
structure Ordered (regions : List MappedMemoryRegion) : Prop where
  sorted : regions.Pairwise fun r r' => r.startVirt ≤ r'.startVirt
  aligned : ∀ r ∈ regions, Aligned r

/-- A region covers the page. -/
def CoversPage (regions : List MappedMemoryRegion) (page : Nat) : Prop :=
  Covers regions (page * pageSize) (page * pageSize + pageSize)

section Track

/-- Two regions that overlap or touch, as one. -/
theorem joined_covers (joined : MappedMemoryRegion) (h : pageSize ∣ r.startVirt ∧ pageSize ∣ r.sizeBytes)
    (h' : pageSize ∣ r'.startVirt ∧ pageSize ∣ r'.sizeBytes) (hle : r.startVirt ≤ r'.startVirt) (htouch : r'.startVirt ≤ r.endVirt)
    (hstart : joined.startVirt = r.startVirt) (hsize : joined.sizeBytes = max r.endVirt r'.endVirt - r.startVirt) :
    (pageSize ∣ joined.startVirt ∧ pageSize ∣ joined.sizeBytes) ∧
      ∀ page, joined.startVirt ≤ page * pageSize ∧ page * pageSize + pageSize ≤ joined.endVirt ↔
        (r.startVirt ≤ page * pageSize ∧ page * pageSize + pageSize ≤ r.endVirt) ∨
          r'.startVirt ≤ page * pageSize ∧ page * pageSize + pageSize ≤ r'.endVirt := by
  obtain ⟨hs,hz⟩ := h
  obtain ⟨hs',hz'⟩ := h'
  simp only [MappedMemoryRegion.endVirt,pageSize] at *
  refine ⟨⟨?_,?_⟩,fun page => ?_⟩ <;> omega

private theorem aligned_joined (merged : MappedMemoryRegion) (h : Aligned r) (h' : Aligned r') (hle : r.startVirt ≤ r'.startVirt)
    (htouch : r'.startVirt ≤ r.endVirt) (hm : merged.startVirt = r.startVirt)
    (hsize : merged.sizeBytes = max r.endVirt r'.endVirt - r.startVirt) :
    Aligned merged ∧ ∀ page, merged.startVirt ≤ page * pageSize ∧ page * pageSize + pageSize ≤ merged.endVirt ↔
      (r.startVirt ≤ page * pageSize ∧ page * pageSize + pageSize ≤ r.endVirt) ∨
        r'.startVirt ≤ page * pageSize ∧ page * pageSize + pageSize ≤ r'.endVirt := by
  obtain ⟨hjoined,hpages⟩ := joined_covers merged ⟨h.start,h.size⟩ ⟨h'.start,h'.size⟩ hle htouch hm hsize
  have hpositive := h.positive
  have hpos : 0 < merged.sizeBytes := by
    rw [hsize,MappedMemoryRegion.endVirt]
    omega
  exact ⟨⟨hjoined.1,hjoined.2,hpos⟩,hpages⟩

private theorem absorbNext_covers (hm : Aligned merged) (h : Ordered regions) (hge : ∀ r ∈ regions, merged.startVirt ≤ r.startVirt) :
    (absorbNext merged regions).1.startVirt = merged.startVirt ∧ Aligned (absorbNext merged regions).1 ∧
      (absorbNext merged regions).2 <:+ regions ∧
      ∀ page, CoversPage ((absorbNext merged regions).1 :: (absorbNext merged regions).2) page ↔ CoversPage (merged :: regions) page := by
  induction regions generalizing merged with
  | nil => exact ⟨rfl,hm,List.nil_suffix,fun _ => Iff.rfl⟩
  | cons next regions ih =>
    rw [absorbNext]
    split_ifs with habsorb
    · obtain ⟨hjoined,hpages⟩ := aligned_joined
        { merged with sizeBytes := max merged.endVirt next.endVirt - merged.startVirt } hm (h.aligned next List.mem_cons_self)
        (hge next List.mem_cons_self) habsorb.2.2 rfl rfl
      obtain ⟨hstart,haligned,hsuffix,hcovers⟩ := ih hjoined
        ⟨(List.pairwise_cons.mp h.sorted).2,fun r hr => h.aligned r (List.mem_cons_of_mem _ hr)⟩
        fun r hr => hge r (List.mem_cons_of_mem _ hr)
      refine ⟨hstart,haligned,hsuffix.trans (List.suffix_cons _ _),fun page => (hcovers page).trans ?_⟩
      rw [CoversPage,CoversPage,Covers.cons_iff,Covers.cons_iff,Covers.cons_iff,hpages page,or_assoc]
    · exact ⟨rfl,hm,List.suffix_refl _,fun _ => Iff.rfl⟩

private theorem absorbPrevious_covers (hm : Aligned merged) (h : Ordered regions) (hlt : ∀ r ∈ regions, r.startVirt < merged.startVirt) :
    (absorbPrevious merged regions).1.startVirt ≤ merged.startVirt ∧ Aligned (absorbPrevious merged regions).1 ∧
      (absorbPrevious merged regions).2 <+: regions ∧
      (∀ r ∈ (absorbPrevious merged regions).2, r.startVirt ≤ (absorbPrevious merged regions).1.startVirt) ∧
      ∀ page, CoversPage ((absorbPrevious merged regions).2 ++ [(absorbPrevious merged regions).1]) page ↔
        CoversPage (regions ++ [merged]) page := by
  unfold absorbPrevious
  obtain rfl | ⟨front,previous,rfl⟩ := List.eq_nil_or_concat regions
  · exact ⟨Nat.le_refl _,hm,List.nil_prefix,nofun,fun _ => Iff.rfl⟩
  rw [List.concat_eq_append] at *
  simp only [List.getLast?_concat]
  have hprevious := hlt previous (by simp)
  split_ifs with habsorb
  · obtain ⟨hjoined,hpages⟩ := aligned_joined { merged with
      startVirt := previous.startVirt
      sizeBytes := max merged.endVirt previous.endVirt - previous.startVirt } (h.aligned previous (by simp)) hm
      (Nat.le_of_lt hprevious) habsorb.2.2 rfl (by rw [Nat.max_comm])
    rw [List.dropLast_concat]
    refine ⟨Nat.le_of_lt hprevious,hjoined,List.prefix_append _ _,fun r hr => ?_,fun page => ?_⟩
    · exact (List.pairwise_append.mp h.sorted).2.2 r hr previous List.mem_cons_self
    · rw [List.append_assoc,CoversPage,CoversPage,Covers.append_iff,Covers.append_iff,List.singleton_append,Covers.cons_iff,
        Covers.cons_iff,Covers.cons_iff,hpages page,or_assoc]
  · exact ⟨Nat.le_refl _,hm,List.prefix_refl _,fun r hr => Nat.le_of_lt (hlt r hr),fun _ => Iff.rfl⟩

theorem trackRegion_eq (region : MappedMemoryRegion) (regions : List MappedMemoryRegion) :
    ∃ m m' before before' after after', regions = before ++ after ∧ trackRegion region regions = before' ++ m' :: after' ∧
      (∀ r ∈ before, r.startVirt < alignDownToPageSize region.startVirt) ∧
      (regions.Pairwise (fun r r' => r.startVirt ≤ r'.startVirt) → ∀ r ∈ after, alignDownToPageSize region.startVirt ≤ r.startVirt) ∧
      absorbPrevious { region with
        startVirt := alignDownToPageSize region.startVirt
        sizeBytes := alignToPageSize region.endVirt - alignDownToPageSize region.startVirt } before = (m,before') ∧
      absorbNext m after = (m',after') :=
  ⟨_,_,_,_,_,_,List.takeWhile_append_dropWhile.symm,rfl,
    fun r hr => by simpa using List.all_eq_true.mp List.all_takeWhile r hr,fun h => dropWhile_start h _,rfl,rfl⟩

/-- The range as the pages that it touches. -/
theorem aligned_widened {new : MappedMemoryRegion} (hsize : 0 < region.sizeBytes)
    (hstart : new.startVirt = alignDownToPageSize region.startVirt)
    (hnewSize : new.sizeBytes = alignToPageSize region.endVirt - alignDownToPageSize region.startVirt) :
    Aligned new ∧ ∀ page, new.startVirt ≤ page * pageSize ∧ page * pageSize + pageSize ≤ new.endVirt ↔
      Touches region.startVirt region.endVirt page := by
  refine ⟨⟨?_,?_,?_⟩,fun page => ?_⟩ <;>
    simp only [Touches,MappedMemoryRegion.endVirt,hstart,hnewSize,alignDownToPageSize,alignToPageSize,pageSize] <;> omega

/-- A new range is covered beside what was covered, whatever it meets. -/
theorem Ordered.trackRegion (h : Ordered regions) (region : MappedMemoryRegion) (hsize : 0 < region.sizeBytes) :
    Ordered (trackRegion region regions) ∧ ∀ page, CoversPage (Process.trackRegion region regions) page ↔
      CoversPage regions page ∨ Touches region.startVirt region.endVirt page := by
  obtain ⟨m,m',before,before',after,after',rfl,htrack,hbefore,hafter,hprevious,hnext⟩ := trackRegion_eq region regions
  rw [htrack]
  obtain ⟨hsB,hsA,hcross⟩ := List.pairwise_append.mp h.sorted
  have hB : Ordered before := ⟨hsB,fun r hr => h.aligned r (List.mem_append_left _ hr)⟩
  have hA : Ordered after := ⟨hsA,fun r hr => h.aligned r (List.mem_append_right _ hr)⟩
  generalize hnew : ({ region with
    startVirt := alignDownToPageSize region.startVirt
    sizeBytes := alignToPageSize region.endVirt - alignDownToPageSize region.startVirt } : MappedMemoryRegion) = new at hprevious
  have hstart : new.startVirt = alignDownToPageSize region.startVirt := by rw [← hnew]
  have hnewSize : new.sizeBytes = alignToPageSize region.endVirt - alignDownToPageSize region.startVirt := by rw [← hnew]
  obtain ⟨hnewAligned,hnewPages⟩ := aligned_widened hsize hstart hnewSize
  obtain ⟨hle,hm,hfront,hleB,hcoversB⟩ := absorbPrevious_covers hnewAligned hB fun r hr => hstart ▸ hbefore r hr
  rw [hprevious] at hle hm hfront hleB hcoversB
  obtain ⟨hstart',hm',hsuffix,hcoversA⟩ := absorbNext_covers hm hA fun r hr => by
    have := hafter h.sorted r hr
    dsimp only at hle ⊢
    omega
  rw [hnext] at hstart' hm' hsuffix hcoversA
  dsimp only at *
  refine ⟨⟨?_,?_⟩,fun page => ?_⟩
  · refine List.pairwise_append.mpr ⟨hsB.sublist hfront.sublist,List.pairwise_cons.mpr ⟨fun r hr => ?_,hsA.sublist hsuffix.sublist⟩,?_⟩
    · have := hafter h.sorted r (hsuffix.subset hr)
      omega
    · intro r hr r' hr'
      obtain rfl | hr' := List.mem_cons.mp hr'
      · rw [hstart']
        exact hleB r hr
      · exact hcross r (hfront.subset hr) r' (hsuffix.subset hr')
  · intro r hr
    obtain hr | hr := List.mem_append.mp hr
    · exact hB.aligned r (hfront.subset hr)
    obtain rfl | hr := List.mem_cons.mp hr
    · exact hm'
    · exact hA.aligned r (hsuffix.subset hr)
  · have hA := hcoversA page
    have hB := hcoversB page
    simp only [CoversPage,Covers.append_iff,Covers.cons_iff,Covers.nil_iff,or_false,hnewPages page] at hA hB ⊢
    rw [hA,← or_assoc,hB,or_right_comm]

section Each
variable {Q : FrameOwnership → Nat → Prop}

/-- The pages that the region covers meet a condition that may depend on whose they are. -/
def EachPage (Q : FrameOwnership → Nat → Prop) (r : MappedMemoryRegion) : Prop :=
  ∀ page, r.startVirt ≤ page * pageSize ∧ page * pageSize + pageSize ≤ r.endVirt → Q r.frameOwnership page

private theorem absorbNext_each (hm : Aligned merged) (h : Ordered regions) (hge : ∀ r ∈ regions, merged.startVirt ≤ r.startVirt)
    (hmerged : EachPage Q merged) (hregions : ∀ r ∈ regions, EachPage Q r) : EachPage Q (absorbNext merged regions).1 := by
  induction regions generalizing merged with
  | nil => exact hmerged
  | cons next regions ih =>
    obtain ⟨hnext,hregions⟩ := List.forall_mem_cons.mp hregions
    rw [absorbNext]
    split_ifs with habsorb
    · obtain ⟨hjoined,hpages⟩ := aligned_joined
        { merged with sizeBytes := max merged.endVirt next.endVirt - merged.startVirt } hm (h.aligned next List.mem_cons_self)
        (hge next List.mem_cons_self) habsorb.2.2 rfl rfl
      refine ih hjoined ⟨(List.pairwise_cons.mp h.sorted).2,fun r hr => h.aligned r (List.mem_cons_of_mem _ hr)⟩
        (fun r hr => hge r (List.mem_cons_of_mem _ hr)) (fun page hpage => ?_) hregions
      exact ((hpages page).mp hpage).elim (hmerged page) fun hpage => habsorb.2.1 ▸ hnext page hpage
    · exact hmerged

private theorem absorbPrevious_each (hm : Aligned merged) (h : Ordered regions) (hlt : ∀ r ∈ regions, r.startVirt < merged.startVirt)
    (hmerged : EachPage Q merged) (hregions : ∀ r ∈ regions, EachPage Q r) : EachPage Q (absorbPrevious merged regions).1 := by
  unfold absorbPrevious
  obtain rfl | ⟨front,previous,rfl⟩ := List.eq_nil_or_concat regions
  · exact hmerged
  rw [List.concat_eq_append] at *
  simp only [List.getLast?_concat]
  split_ifs with habsorb
  · obtain ⟨-,hpages⟩ := aligned_joined { merged with
      startVirt := previous.startVirt
      sizeBytes := max merged.endVirt previous.endVirt - previous.startVirt } (h.aligned previous (by simp)) hm
      (Nat.le_of_lt (hlt previous (by simp))) habsorb.2.2 rfl (by rw [Nat.max_comm])
    intro page hpage
    exact ((hpages page).mp hpage).elim (fun hpage => habsorb.2.1 ▸ hregions previous (by simp) page hpage) (hmerged page)
  · exact hmerged

/-- Regions are merged only with regions of the same owner. -/
theorem Ordered.trackRegion_each (h : Ordered regions) (region : MappedMemoryRegion) (hsize : 0 < region.sizeBytes)
    (hregions : ∀ r ∈ regions, EachPage Q r)
    (hregion : ∀ page, Touches region.startVirt region.endVirt page → Q region.frameOwnership page) :
    ∀ r ∈ Process.trackRegion region regions, EachPage Q r := by
  obtain ⟨m,m',before,before',after,after',rfl,htrack,hbefore,hafter,hprevious,hnext⟩ := trackRegion_eq region regions
  rw [htrack]
  obtain ⟨hsB,hsA,-⟩ := List.pairwise_append.mp h.sorted
  have hB : Ordered before := ⟨hsB,fun r hr => h.aligned r (List.mem_append_left _ hr)⟩
  have hA : Ordered after := ⟨hsA,fun r hr => h.aligned r (List.mem_append_right _ hr)⟩
  generalize hnew : ({ region with
    startVirt := alignDownToPageSize region.startVirt
    sizeBytes := alignToPageSize region.endVirt - alignDownToPageSize region.startVirt } : MappedMemoryRegion) = new at hprevious
  have hstart : new.startVirt = alignDownToPageSize region.startVirt := by rw [← hnew]
  have howner : new.frameOwnership = region.frameOwnership := by rw [← hnew]
  obtain ⟨hnewAligned,hnewPages⟩ := aligned_widened hsize hstart (by rw [← hnew])
  have hnewEach : EachPage Q new := fun page hpage => howner ▸ hregion page ((hnewPages page).mp hpage)
  have hlt : ∀ r ∈ before, r.startVirt < new.startVirt := fun r hr => hstart ▸ hbefore r hr
  obtain ⟨hle,hm,hfront,-,-⟩ := absorbPrevious_covers hnewAligned hB hlt
  have hmEach := absorbPrevious_each hnewAligned hB hlt hnewEach fun r hr => hregions r (List.mem_append_left _ hr)
  rw [hprevious] at hle hm hfront hmEach
  have hge : ∀ r ∈ after, m.startVirt ≤ r.startVirt := fun r hr => by
    have := hafter h.sorted r hr
    dsimp only at hle
    omega
  obtain ⟨-,-,hsuffix,-⟩ := absorbNext_covers hm hA hge
  have hmEach' := absorbNext_each hm hA hge hmEach fun r hr => hregions r (List.mem_append_right _ hr)
  rw [hnext] at hsuffix hmEach'
  intro r hr
  obtain hr | hr := List.mem_append.mp hr
  · exact hregions r (List.mem_append_left _ (hfront.subset hr))
  obtain rfl | hr := List.mem_cons.mp hr
  · exact hmEach'
  · exact hregions r (List.mem_append_right _ (hsuffix.subset hr))

end Each
end Track

section Pieces

private theorem sorted_pieces (h : a ≤ b) : (pieces region a b).Pairwise fun r r' => r.startVirt ≤ r'.startVirt := by
  unfold pieces
  split_ifs with hlt hlt' <;> simp
  omega

/-- What is left of a region of whole pages is made of whole pages when the range is, and covers the pages
outside the range. -/
private theorem pieces_covers (h : Aligned region) (ha : pageSize ∣ a) (hb : pageSize ∣ b) (hab : a ≤ b)
    (hstart : region.startVirt ≤ a) (hend : b ≤ region.endVirt) :
    (∀ r ∈ pieces region a b, Aligned r) ∧ ∀ page, CoversPage (pieces region a b) page ↔
      (region.startVirt ≤ page * pageSize ∧ page * pageSize + pageSize ≤ region.endVirt) ∧
        (page * pageSize + pageSize ≤ a ∨ b ≤ page * pageSize) := by
  obtain ⟨hs,hz,hp⟩ := h
  refine ⟨fun r hr => ?_,fun page => ?_⟩
  · have hpiece := mem_pieces hr
    simp only [MappedMemoryRegion.endVirt,pageSize] at *
    refine ⟨?_,?_,?_⟩
    · rw [pageSize]
      omega
    · rw [pageSize]
      omega
    · omega
  · unfold CoversPage pieces
    by_cases hlt : region.startVirt < a <;> by_cases hlt' : b < region.endVirt <;>
      simp only [hlt,hlt',if_true,if_false,Covers.append_iff,Covers.cons_iff,Covers.nil_iff,or_false,false_or,false_iff] <;>
      simp only [MappedMemoryRegion.endVirt,pageSize] at * <;> omega

/-- The range and its region are whole pages, no other region meets the range, and the piece behind the
range starts where the regions behind it allow it to. -/
structure Carvable (start size : Nat) (before after : List MappedMemoryRegion) (region : MappedMemoryRegion) : Prop where
  alignedStart : pageSize ∣ start
  alignedSize : pageSize ∣ size
  apart : ∀ r ∈ before ++ after, r.endVirt ≤ start ∨ start + size ≤ r.startVirt ∨ size = 0
  order : start + size < region.endVirt → ∀ r ∈ after, start + size ≤ r.startVirt

variable {start size : Nat} {before after : List MappedMemoryRegion}

theorem Carvable.ordered (hc : Carvable start size before after region) (h : Ordered (before ++ region :: after))
    (hstart : region.startVirt ≤ start) (hend : start + size ≤ region.endVirt) :
    Ordered (before ++ pieces region start (start + size) ++ after) ∧
      ∀ page, CoversPage (before ++ pieces region start (start + size) ++ after) page ↔
        CoversPage (before ++ region :: after) page ∧ ¬ (size ≠ 0 ∧ Touches start (start + size) page) := by
  have hregion := h.aligned region (by simp)
  obtain ⟨haligned,hcovers⟩ := pieces_covers hregion hc.alignedStart ((Nat.dvd_add_iff_right hc.alignedStart).mp hc.alignedSize) (Nat.le_add_right _ _) hstart hend
  obtain ⟨hsB,hsA,hcross⟩ := List.pairwise_append.mp h.sorted
  obtain ⟨hsR,hsA⟩ := List.pairwise_cons.mp hsA
  refine ⟨⟨?_,fun r hr => ?_⟩,fun page => ?_⟩
  · refine List.pairwise_append.mpr ⟨List.pairwise_append.mpr ⟨hsB,sorted_pieces (by omega),fun r hr p hp => ?_⟩,hsA,?_⟩
    · have := hcross r hr region List.mem_cons_self
      obtain ⟨-,hps,-⟩ | ⟨-,hps,-⟩ := mem_pieces hp <;> omega
    · intro r hr r' hr'
      obtain hr | hr := List.mem_append.mp hr
      · exact hcross r hr r' (List.mem_cons_of_mem _ hr')
      · have := hsR r' hr'
        obtain ⟨-,hps,-⟩ | ⟨hbehind,hps,-⟩ := mem_pieces hr
        · omega
        · exact hps ▸ hc.order hbehind r' hr'
  · simp only [List.mem_append] at hr
    obtain (hr | hr) | hr := hr
    · exact h.aligned r (by simp [hr])
    · exact haligned r hr
    · exact h.aligned r (by simp [hr])
  · simp only [CoversPage,Covers.append_iff,Covers.cons_iff] at hcovers ⊢
    have happart : ∀ rs, rs ⊆ before ++ after → Covers rs (page * pageSize) (page * pageSize + pageSize) →
        ¬ (size ≠ 0 ∧ Touches start (start + size) page) := by
      rintro rs hrs ⟨r,hr,hle,hge⟩ ⟨hsize,htouch⟩
      have := hc.apart r (hrs hr)
      simp only [Touches,pageSize] at *
      omega
    have hoff : page * pageSize + pageSize ≤ start ∨ start + size ≤ page * pageSize ↔
        ¬ (size ≠ 0 ∧ Touches start (start + size) page) := by
      have hs := hc.alignedStart
      have hz := hc.alignedSize
      simp only [Touches,pageSize] at *
      omega
    rw [hcovers,hoff]
    constructor
    · rintro ((hcov | ⟨hcov,hx⟩) | hcov)
      · exact ⟨.inl hcov,happart before (List.subset_append_left _ _) hcov⟩
      · exact ⟨.inr (.inl hcov),hx⟩
      · exact ⟨.inr (.inr hcov),happart after (List.subset_append_right _ _) hcov⟩
    · rintro ⟨hcov | hcov | hcov,hx⟩
      · exact .inl (.inl hcov)
      · exact .inl (.inr ⟨hcov,hx⟩)
      · exact .inr hcov

theorem carvable_of_ordered (h : Ordered (before ++ region :: after)) (hstart : region.startVirt ≤ start)
    (hend : start + size ≤ region.endVirt) (h' : Ordered (before ++ pieces region start (start + size) ++ after))
    (hcovers : ∀ page, CoversPage (before ++ pieces region start (start + size) ++ after) page →
      ¬ (size ≠ 0 ∧ Touches start (start + size) page)) : Carvable start size before after region := by
  have hregion := h.aligned region (by simp)
  have hlow : region.startVirt < start →
      { region with sizeBytes := start - region.startVirt } ∈ before ++ pieces region start (start + size) ++ after :=
    fun hlt => by simp [pieces,hlt]
  have hhigh : start + size < region.endVirt → { region with
      startVirt := start + size, sizeBytes := region.endVirt - (start + size) } ∈ pieces region start (start + size) :=
    fun hlt => by simp [pieces,hlt]
  have hstart' : pageSize ∣ start := by
    obtain hlt | rfl := Nat.lt_or_eq_of_le hstart
    · have := (h'.aligned _ (hlow hlt)).size
      have := hregion.start
      simp only [pageSize] at *
      omega
    · exact hregion.start
  have hend' : pageSize ∣ start + size := by
    obtain hlt | heq := Nat.lt_or_eq_of_le hend
    · exact (h'.aligned _ (List.mem_append_left _ (List.mem_append_right _ (hhigh hlt)))).start
    · rw [heq]
      exact Nat.dvd_add hregion.start hregion.size
  refine ⟨hstart',(Nat.dvd_add_iff_right hstart').mpr hend',fun r hr => ?_,fun hlt r hr => ?_⟩
  · by_contra hmeets
    push Not at hmeets
    -- the first page that the region and the range share
    have hr' : r ∈ before ++ pieces region start (start + size) ++ after := by
      simp only [List.mem_append] at hr ⊢
      tauto
    have haligned := h'.aligned r hr'
    refine hcovers (max start r.startVirt / pageSize) ⟨r,hr',?_⟩ ⟨hmeets.2.2,?_⟩
    · obtain ⟨hs,hz,hp⟩ := haligned
      simp only [MappedMemoryRegion.endVirt,pageSize] at *
      omega
    · obtain ⟨hs,hz,hp⟩ := haligned
      simp only [Touches,MappedMemoryRegion.endVirt,pageSize] at *
      omega
  · exact (List.pairwise_append.mp h'.sorted).2.2 _ (List.mem_append_right _ (hhigh hlt)) r hr

end Pieces

namespace AddressSpace
variable {F : Type} [DecidableEq F] [Mapper F] {s t : AddressSpace F} {start size : Nat} {pageFlags : PageTableFlags}
  {ownership : FrameOwnership} {frames : List F} {memory : UserMemory F}

section Calls

omit [DecidableEq F] in
theorem unmapRegion_keeps (h : s.memory.Intact) : (s.unmapRegion start size).2.memory.Intact := by
  unfold unmapRegion
  split
  · exact h
  · exact h.unmapUserRegion _

theorem mapOwnedRegion_keeps (h : s.memory.Intact) (hflags : pageFlags.present) :
    (s.mapOwnedRegion start size pageFlags).2.memory.Intact := by
  have hmap : (s.memory.mapVirtMemRegion start size pageFlags).2.Intact := by
    obtain ⟨j,t,hrounds,⟨-,hres⟩ | ⟨-,-,hres⟩⟩ :=
      UserMemory.mapPages_cases (start / pageSize) pageFlags (start / pageSize) (UserMemory.pageCount start size) s.memory
    · rw [UserMemory.mapVirtMemRegion,hres]
      exact hrounds.keeps h hflags
    · rw [UserMemory.mapVirtMemRegion,hres]
      exact (UserMemory.mapNewPage_keeps _ (hrounds.keeps h hflags) hflags).unmapUserRegion _
  unfold mapOwnedRegion
  split_ifs
  · exact h
  · generalize s.memory.mapVirtMemRegion start size pageFlags = r at *
    obtain ⟨_ | _,memory⟩ := r <;> exact hmap

/-- The pages of the range are mapped beside those that were, and the range is tracked. -/
theorem mapOwnedRegion_spec (h : (s.mapOwnedRegion start size pageFlags).1 = true) (hsize : size ≠ 0) :
    (s.mapOwnedRegion start size pageFlags).2.regions = trackRegion ⟨start,size,pageFlags,.owned⟩ s.regions ∧
      ∀ page, (s.mapOwnedRegion start size pageFlags).2.memory.leaves page ≠ none ↔
        s.memory.leaves page ≠ none ∨ Touches start (start + size) page := by
  obtain ⟨j,t,hrounds,⟨rfl,hres⟩ | ⟨-,-,hres⟩⟩ :=
    UserMemory.mapPages_cases (start / pageSize) pageFlags (start / pageSize) (UserMemory.pageCount start size) s.memory
  · have htouch : ∀ page, Touches start (start + size) page ↔
        start / pageSize ≤ page ∧ page < start / pageSize + UserMemory.pageCount start size := by
      intro page
      simp only [Touches,UserMemory.pageCount,pageSize]
      omega
    rw [mapOwnedRegion,if_neg hsize,UserMemory.mapVirtMemRegion,hres]
    refine ⟨rfl,fun page => ?_⟩
    rw [htouch]
    by_cases hpage : start / pageSize ≤ page ∧ page < start / pageSize + UserMemory.pageCount start size
    · exact iff_of_true (hrounds.leaves.2 page hpage.1 hpage.2) (.inr hpage)
    · rw [hrounds.leaves.1 page (by omega),or_iff_left hpage]
  · rw [mapOwnedRegion,if_neg hsize,UserMemory.mapVirtMemRegion,hres] at h
    cases h

private theorem mapEach_keeps (start : Nat) (frames : List F) (k : Nat) (h : memory.Intact) (hflags : pageFlags.present) :
    (mapEach start pageFlags k frames memory).2.Intact := by
  induction frames generalizing k memory with
  | nil => exact h
  | cons frame frames ih =>
    have hone := UserMemory.mapSpecificFrame_keeps ((start + k * pageSize) / pageSize) frame h hflags
    rw [mapEach]
    generalize memory.mapSpecificFrame ((start + k * pageSize) / pageSize) frame pageFlags = r at *
    obtain ⟨_ | _,u⟩ := r
    · exact hone.unmapUserRegion _
    · exact ih (k + 1) hone

private theorem mapEach_leaves (frames : List F) (k : Nat) (memory : UserMemory F)
    (h : (mapEach start pageFlags k frames memory).1 = true) (page : Nat) :
    (mapEach start pageFlags k frames memory).2.leaves page ≠ none ↔
      memory.leaves page ≠ none ∨ start / pageSize + k ≤ page ∧ page < start / pageSize + k + frames.length := by
  induction frames generalizing k memory with
  | nil => exact (or_iff_left (by simp)).symm
  | cons frame frames ih =>
    have hpage : (start + k * pageSize) / pageSize = start / pageSize + k := Nat.add_mul_div_right _ _ (by decide)
    rw [mapEach,hpage] at h ⊢
    obtain ⟨new,-,-,⟨⟨e,hr⟩,-⟩ | ⟨hr,hleaves,-⟩⟩ :=
      UserMemory.mapSpecificFrame_cases (start / pageSize + k) frame pageFlags memory
    · generalize memory.mapSpecificFrame (start / pageSize + k) frame pageFlags = r at *
      obtain ⟨result,u⟩ := r
      dsimp only at hr
      subst hr
      cases h
    · generalize memory.mapSpecificFrame (start / pageSize + k) frame pageFlags = r at *
      obtain ⟨result,u⟩ := r
      dsimp only at hr hleaves
      subst hr
      dsimp only at h ⊢
      rw [ih (k + 1) _ h,hleaves,Function.update_apply,List.length_cons]
      split_ifs with heq
      · exact iff_of_true (.inl (Option.some_ne_none _)) (.inr (by omega))
      · exact or_congr_right (by omega)

theorem mapFrames_keeps (h : s.memory.Intact) (hflags : pageFlags.present) :
    (s.mapFrames start frames pageFlags ownership).2.memory.Intact := by
  have hmap := mapEach_keeps start frames 0 h hflags
  unfold mapFrames
  split_ifs
  · exact h
  · generalize mapEach start pageFlags 0 frames s.memory = r at *
    obtain ⟨_ | _,memory⟩ := r <;> exact hmap

/-- The frames take as many pages from the one that the start lies in, but the bytes from the start on are
tracked. -/
theorem mapFrames_spec (h : (s.mapFrames start frames pageFlags ownership).1 = true) (hframes : frames ≠ []) :
    (s.mapFrames start frames pageFlags ownership).2.regions =
        trackRegion ⟨start,frames.length * pageSize,pageFlags,ownership⟩ s.regions ∧
      ∀ page, (s.mapFrames start frames pageFlags ownership).2.memory.leaves page ≠ none ↔
        s.memory.leaves page ≠ none ∨ start / pageSize ≤ page ∧ page < start / pageSize + frames.length := by
  have hmap := @mapEach_leaves F _ _ start pageFlags frames 0 s.memory
  rw [mapFrames,if_neg hframes] at h ⊢
  generalize mapEach start pageFlags 0 frames s.memory = r at *
  obtain ⟨ok,memory⟩ := r
  cases ok with
  | false => cases h
  | true => exact ⟨rfl,hmap rfl⟩

end Calls

/-- The regions are ordered, and a page is covered by one of them exactly when it is mapped. -/
structure Mirror (s : AddressSpace F) : Prop where
  ordered : Ordered s.regions
  covers : ∀ page, CoversPage s.regions page ↔ s.memory.leaves page ≠ none

/-- A region is found that can be carved, or none is found. -/
def RangeKeeps (start size : Nat) (s : AddressSpace F) : Prop :=
  ¬ Covers s.regions start (start + size) ∨ ∃ before region after, s.regions = before ++ region :: after ∧
    (∀ r ∈ before, ¬ (r.startVirt ≤ start ∧ start + size ≤ r.endVirt)) ∧ region.startVirt ≤ start ∧ start + size ≤ region.endVirt ∧
      Carvable start size before after region

omit [DecidableEq F] in
/-- What the region that is found leaves behind. -/
private theorem unmapRegion_mirror_of (h : s.Mirror) (hs : s.memory.Intact) {before after : List MappedMemoryRegion}
    (hregions : s.regions = before ++ region :: after)
    (hbefore : ∀ r ∈ before, ¬ (r.startVirt ≤ start ∧ start + size ≤ r.endVirt)) (hstart : region.startVirt ≤ start)
    (hend : start + size ≤ region.endVirt) :
    (s.unmapRegion start size).2.Mirror ↔ Carvable start size before after region := by
  have hunmap : (s.unmapRegion start size).2.regions = before ++ pieces region start (start + size) ++ after ∧
      (s.unmapRegion start size).2.memory.leaves =
        Memory.unmapUserRegion { region with startVirt := start, sizeBytes := size } s.memory.leaves := by
    rw [unmapRegion,hregions,carve_append hbefore hstart hend]
    exact ⟨rfl,(UserMemory.unmapUserRegion_spec hs.present _).1⟩
  obtain ⟨hregions',hleaves⟩ := hunmap
  have hmapped : ∀ page, (s.unmapRegion start size).2.memory.leaves page ≠ none ↔
      s.memory.leaves page ≠ none ∧ ¬ (size ≠ 0 ∧ Touches start (start + size) page) := by
    intro page
    rw [hleaves,Memory.unmapUserRegion]
    dsimp only [MappedMemoryRegion.endVirt]
    split_ifs with hrange <;> simp [hrange]
  have hordered := hregions ▸ h.ordered
  constructor
  · intro h'
    refine carvable_of_ordered hordered hstart hend (hregions' ▸ h'.ordered) fun page hpage => ?_
    rw [← hregions',h'.covers,hmapped] at hpage
    exact hpage.2
  · intro hc
    obtain ⟨hordered',hcovers⟩ := hc.ordered hordered hstart hend
    refine ⟨hregions' ▸ hordered',fun page => ?_⟩
    rw [hregions',hcovers,hmapped,← h.covers,hregions]

omit [DecidableEq F] in
theorem unmapRegion_mirror_iff (h : s.Mirror) (hs : s.memory.Intact) :
    (s.unmapRegion start size).2.Mirror ↔ RangeKeeps start size s := by
  cases hcarve : carve start (start + size) s.regions with
  | none =>
    rw [unmapRegion,hcarve]
    exact iff_of_true h (.inl (carve_none.mp hcarve))
  | some x =>
    obtain ⟨region,rest⟩ := x
    obtain ⟨before,after,hregions,hbefore,hstart,hend,-⟩ := carve_first hcarve
    constructor
    · intro h'
      exact .inr ⟨before,region,after,hregions,hbefore,hstart,hend,(unmapRegion_mirror_of h hs hregions hbefore hstart hend).mp h'⟩
    · rintro (hnone | ⟨before,region,after,hregions,hbefore,hstart,hend,hc⟩)
      · rw [carve_none.mpr hnone] at hcarve
        cases hcarve
      · exact (unmapRegion_mirror_of h hs hregions hbefore hstart hend).mpr hc

theorem mapOwnedRegion_mirror (h : s.Mirror) (hok : (s.mapOwnedRegion start size pageFlags).1 = true) :
    (s.mapOwnedRegion start size pageFlags).2.Mirror := by
  by_cases hsize : size = 0
  · rwa [mapOwnedRegion,if_pos hsize]
  obtain ⟨hregions,hleaves⟩ := mapOwnedRegion_spec hok hsize
  obtain ⟨hordered,hcovers⟩ := h.ordered.trackRegion ⟨start,size,pageFlags,.owned⟩ (Nat.pos_of_ne_zero hsize)
  refine ⟨hregions ▸ hordered,fun page => ?_⟩
  rw [hregions,hcovers,hleaves,h.covers]
  rfl

/-- The page behind the last frame is tracked with the others when the start is not that of a page. -/
def FramesKeep (start : Nat) (frames : List F) (s : AddressSpace F) : Prop :=
  frames = [] ∨ pageSize ∣ start ∨ s.memory.leaves (start / pageSize + frames.length) ≠ none

theorem mapFrames_mirror_iff (h : s.Mirror) (hok : (s.mapFrames start frames pageFlags ownership).1 = true) :
    (s.mapFrames start frames pageFlags ownership).2.Mirror ↔ FramesKeep start frames s := by
  by_cases hframes : frames = []
  · rw [mapFrames,if_pos hframes]
    exact iff_of_true h (.inl hframes)
  have hlength : 0 < frames.length := List.length_pos_iff.mpr hframes
  obtain ⟨hregions,hleaves⟩ := mapFrames_spec hok hframes
  obtain ⟨hordered,hcovers⟩ := h.ordered.trackRegion ⟨start,frames.length * pageSize,pageFlags,ownership⟩
    (Nat.mul_pos hlength (by decide))
  simp only [MappedMemoryRegion.endVirt] at hcovers
  have htouch : ∀ page, Touches start (start + frames.length * pageSize) page ↔
      (start / pageSize ≤ page ∧ page < start / pageSize + frames.length) ∨
        ¬ pageSize ∣ start ∧ page = start / pageSize + frames.length := by
    intro page
    simp only [Touches,pageSize]
    omega
  constructor
  · intro hmirror
    refine .inr (or_iff_not_imp_left.mpr fun hstart => ?_)
    have hpage := hmirror.covers (start / pageSize + frames.length)
    rw [hregions,hcovers,hleaves,htouch] at hpage
    exact (hpage.mp (.inr (.inr ⟨hstart,rfl⟩))).resolve_right (by omega)
  · intro hkeep
    refine ⟨hregions ▸ hordered,fun page => ?_⟩
    rw [hregions,hcovers,hleaves,h.covers,htouch]
    refine ⟨?_,Or.imp_right .inl⟩
    rintro (hpage | hpage | ⟨hstart,rfl⟩)
    · exact .inl hpage
    · exact .inr hpage
    · exact .inl ((hkeep.resolve_left hframes).resolve_left hstart)

/-- The calls on an address space. What is mapped is present. -/
inductive Call (F : Type) where
  | mapOwnedRegion (startVirt sizeBytes : Nat) (pageFlags : {flags : PageTableFlags // flags.present})
  | mapFrames (startVirt : Nat) (frames : List F) (pageFlags : {flags : PageTableFlags // flags.present})
      (frameOwnership : FrameOwnership)
  | unmapRegion (startVirt sizeBytes : Nat)

section Runs

/-- A mapping that fails ends the run. -/
def succeeded (r : Bool × AddressSpace F) : Option (AddressSpace F) := if r.1 then some r.2 else none

def step (s : AddressSpace F) : Call F → Option (AddressSpace F)
  | .mapOwnedRegion startVirt sizeBytes pageFlags => succeeded (s.mapOwnedRegion startVirt sizeBytes pageFlags)
  | .mapFrames startVirt frames pageFlags frameOwnership => succeeded (s.mapFrames startVirt frames pageFlags frameOwnership)
  | .unmapRegion startVirt sizeBytes => some (s.unmapRegion startVirt sizeBytes).2

def run (calls : List (Call F)) (s : AddressSpace F) : Option (AddressSpace F) := calls.foldlM step s

def KeepsMirror (s : AddressSpace F) : Call F → Prop
  | .mapOwnedRegion .. => True
  | .mapFrames startVirt frames _ _ => FramesKeep startVirt frames s
  | .unmapRegion startVirt sizeBytes => RangeKeeps startVirt sizeBytes s

variable {c : Call F} {calls done : List (Call F)}

omit [DecidableEq F] [Mapper F] in
theorem succeeded_eq_some {r : Bool × AddressSpace F} : succeeded r = some t ↔ r.1 = true ∧ r.2 = t := by
  rw [succeeded]
  split_ifs with hok <;> simp [hok]

private theorem step_keeps (h : s.memory.Intact) (hstep : s.step c = some t) : t.memory.Intact := by
  cases c with
  | mapOwnedRegion startVirt sizeBytes pageFlags =>
    obtain ⟨-,rfl⟩ := succeeded_eq_some.mp hstep
    exact mapOwnedRegion_keeps h pageFlags.2
  | mapFrames startVirt frames pageFlags frameOwnership =>
    obtain ⟨-,rfl⟩ := succeeded_eq_some.mp hstep
    exact mapFrames_keeps h pageFlags.2
  | unmapRegion startVirt sizeBytes =>
    cases hstep
    exact unmapRegion_keeps h

private theorem step_mirror_iff (h : s.Mirror) (hs : s.memory.Intact) (hstep : s.step c = some t) : t.Mirror ↔ s.KeepsMirror c := by
  cases c with
  | mapOwnedRegion startVirt sizeBytes pageFlags =>
    obtain ⟨hok,rfl⟩ := succeeded_eq_some.mp hstep
    exact iff_of_true (mapOwnedRegion_mirror h hok) trivial
  | mapFrames startVirt frames pageFlags frameOwnership =>
    obtain ⟨hok,rfl⟩ := succeeded_eq_some.mp hstep
    exact mapFrames_mirror_iff h hok
  | unmapRegion startVirt sizeBytes =>
    cases hstep
    exact unmapRegion_mirror_iff h hs

private theorem run_concat : run (done ++ [c]) s = (run done s).bind (step · c) := by
  rw [run,List.foldlM_append,run]
  cases List.foldlM step s done with
  | none => rfl
  | some u =>
    change List.foldlM step u [c] = u.step c
    simp

private theorem run_keeps (h : s.memory.Intact) (hrun : run calls s = some t) : t.memory.Intact := by
  induction calls using List.reverseRecOn generalizing t with
  | nil =>
    cases hrun
    exact h
  | append_singleton calls c ih =>
    rw [run_concat] at hrun
    obtain ⟨u,hu,hstep⟩ := Option.bind_eq_some_iff.mp hrun
    exact step_keeps (ih hu) hstep

omit [DecidableEq F] [Mapper F] in
theorem withPageTable_mirror (top : F) (memory : UserMemory F) :
    (withPageTable top memory).Mirror ∧ (withPageTable top memory).memory.Intact :=
  ⟨⟨⟨List.Pairwise.nil,nofun⟩,fun _ => iff_of_false (fun h => Covers.nil_iff.mp h) fun h => h rfl⟩,⟨nofun,nofun⟩⟩

/-- The regions mirror the pages all along exactly when every call finds what it needs for that. -/
theorem mirror_iff (top : F) (memory : UserMemory F) (calls : List (Call F)) :
    (∀ done, done <+: calls → ∀ s, run done (withPageTable top memory) = some s → s.Mirror) ↔
      ∀ done c, done ++ [c] <+: calls → ∀ s t, run done (withPageTable top memory) = some s → s.step c = some t →
        s.KeepsMirror c := by
  obtain ⟨hmirror,hintact⟩ := withPageTable_mirror top memory
  constructor
  · intro h done c hfront s t hrun hstep
    have hs := h done ((List.prefix_append done [c]).trans hfront) s hrun
    refine (step_mirror_iff hs (run_keeps hintact hrun) hstep).mp (h (done ++ [c]) hfront t ?_)
    rw [run_concat,hrun]
    exact hstep
  · intro h done hfront
    induction done using List.reverseRecOn with
    | nil =>
      intro s hrun
      cases hrun
      exact hmirror
    | append_singleton done c ih =>
      intro t hrun
      rw [run_concat] at hrun
      obtain ⟨s,hs,hstep⟩ := Option.bind_eq_some_iff.mp hrun
      have hdone := (List.prefix_append done [c]).trans hfront
      exact (step_mirror_iff (ih hdone s hs) (run_keeps hintact hs) hstep).mpr (h done c hfront s t hs hstep)

abbrev overlapCalls : List (Call Nat) :=
  [.mapOwnedRegion 0x2000 0x5000 ⟨dataFlags,rfl⟩,.mapOwnedRegion 0x3000 0x1000 ⟨{ dataFlags with writable := false },rfl⟩,
    .unmapRegion 0x3000 0x1000]

private theorem run_overlapCalls : (run overlapCalls (smallSpace 9)).map (fun s => (s.regions,s.memory.leaves 3)) =
    some ([⟨0x2000,0x1000,dataFlags,.owned⟩,⟨0x4000,0x3000,dataFlags,.owned⟩,
      ⟨0x3000,0x1000,{ dataFlags with writable := false },.owned⟩],none) := by
  decide +kernel

/-- Pages 2 to 6 are mapped, then page 3 with other flags. When page 3 is unmapped it goes out of the first
region only: the second one covers it still, and the piece behind it stands in front of that one. -/
theorem overlapped_page_covered : ∃ s, run overlapCalls (smallSpace 9) = some s ∧
    CoversPage s.regions 3 ∧ s.memory.leaves 3 = none ∧ ¬ s.regions.Pairwise fun r r' => r.startVirt ≤ r'.startVirt := by
  obtain ⟨s,hrun,heq⟩ := Option.map_eq_some_iff.mp run_overlapCalls
  obtain ⟨hregions,hleaf⟩ := Prod.mk.inj heq
  refine ⟨s,hrun,?_,hleaf,?_⟩ <;> rw [hregions]
  · exact ⟨⟨0x3000,0x1000,{ dataFlags with writable := false },.owned⟩,by simp,by decide,by decide⟩
  · decide

end Runs

end AddressSpace
end MofuOS.Process
