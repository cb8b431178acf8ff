import MofuOS.Process.RegionMirror
import MofuOS.Process.RegionWords

/-! What track_region does to the regions of each kind, where regions of different flags or ownership may
overlap. -/
namespace MofuOS.Process
open Memory

variable {regions : List MappedMemoryRegion} {merged r r' : MappedMemoryRegion} {page : Nat}

/-- The flags and the ownership by which track_region tells which regions it may merge. -/
def kindOf (r : MappedMemoryRegion) : PageTableFlags × FrameOwnership := (r.pageFlags,r.frameOwnership)

/-- The region starts and ends between two pages. -/
def PageAligned (r : MappedMemoryRegion) : Prop := pageSize ∣ r.startVirt ∧ pageSize ∣ r.sizeBytes

def Within (r : MappedMemoryRegion) (page : Nat) : Prop := r.startVirt ≤ page * pageSize ∧ page * pageSize + pageSize ≤ r.endVirt

def ofKind (kind : PageTableFlags × FrameOwnership) (regions : List MappedMemoryRegion) : List MappedMemoryRegion :=
  regions.filter fun r => kindOf r = kind

def ofOtherKinds (kind : PageTableFlags × FrameOwnership) (regions : List MappedMemoryRegion) : List MappedMemoryRegion :=
  regions.filter fun r => kindOf r ≠ kind

theorem coversPage_cons : CoversPage (r :: regions) page ↔ Within r page ∨ CoversPage regions page := Covers.cons_iff

theorem coversPage_append {front : List MappedMemoryRegion} :
    CoversPage (front ++ regions) page ↔ CoversPage front page ∨ CoversPage regions page := Covers.append_iff

theorem not_coversPage_nil : ¬ CoversPage [] page := Covers.nil_iff.mp

/-- Two regions that overlap or touch, as one. -/
private theorem pageAligned_joined (joined : MappedMemoryRegion) (h : PageAligned r) (h' : PageAligned r')
    (hle : r.startVirt ≤ r'.startVirt) (htouch : r'.startVirt ≤ r.endVirt) (hstart : joined.startVirt = r.startVirt)
    (hsize : joined.sizeBytes = max r.endVirt r'.endVirt - r.startVirt) :
    PageAligned joined ∧ ∀ page, Within joined page ↔ Within r page ∨ Within r' page :=
  joined_covers joined h h' hle htouch hstart hsize

/-- The regions that the loop absorbs are of the kind of the new one, which covers their pages then. -/
private theorem absorbNext_exact (hm : PageAligned merged) (hregions : ∀ r ∈ regions, PageAligned r)
    (hbehind : ∀ r ∈ regions, merged.startVirt ≤ r.startVirt) :
    ∃ absorbed, regions = absorbed ++ (absorbNext merged regions).2 ∧ (∀ r ∈ absorbed, kindOf r = kindOf merged) ∧
      kindOf (absorbNext merged regions).1 = kindOf merged ∧ (absorbNext merged regions).1.startVirt = merged.startVirt ∧
      ∀ page, Within (absorbNext merged regions).1 page ↔ Within merged page ∨ CoversPage absorbed page := by
  induction regions generalizing merged with
  | nil => exact ⟨[],rfl,nofun,rfl,rfl,fun _ => (or_iff_left not_coversPage_nil).symm⟩
  | cons next regions ih =>
    obtain ⟨hnext,hregions⟩ := List.forall_mem_cons.mp hregions
    obtain ⟨hstart,hbehind⟩ := List.forall_mem_cons.mp hbehind
    rw [absorbNext]
    split_ifs with habsorb
    · obtain ⟨hflags,howner,htouch⟩ := habsorb
      obtain ⟨hjoined,hpages⟩ := pageAligned_joined
        { merged with sizeBytes := max merged.endVirt next.endVirt - merged.startVirt } hm hnext hstart htouch rfl rfl
      obtain ⟨absorbed,hsplit,hkinds,hkind,hstart',hwithin⟩ := ih hjoined hregions hbehind
      refine ⟨next :: absorbed,by rw [List.cons_append,← hsplit],?_,hkind,hstart',fun page => ?_⟩
      · exact List.forall_mem_cons.mpr ⟨Prod.ext hflags howner,hkinds⟩
      · rw [hwithin,hpages,coversPage_cons,or_assoc]
    · exact ⟨[],rfl,nofun,rfl,rfl,fun _ => (or_iff_left not_coversPage_nil).symm⟩

private theorem absorbPrevious_exact (hm : PageAligned merged) (hregions : ∀ r ∈ regions, PageAligned r)
    (hsorted : regions.Pairwise fun r r' => r.startVirt ≤ r'.startVirt) (hfront : ∀ r ∈ regions, r.startVirt < merged.startVirt) :
    ∃ absorbed, regions = (absorbPrevious merged regions).2 ++ absorbed ∧ (∀ r ∈ absorbed, kindOf r = kindOf merged) ∧
      kindOf (absorbPrevious merged regions).1 = kindOf merged ∧ PageAligned (absorbPrevious merged regions).1 ∧
      (absorbPrevious merged regions).1.startVirt ≤ merged.startVirt ∧
      (∀ r ∈ (absorbPrevious merged regions).2, r.startVirt ≤ (absorbPrevious merged regions).1.startVirt) ∧
      ∀ page, Within (absorbPrevious merged regions).1 page ↔ Within merged page ∨ CoversPage absorbed page := by
  have hnone : ∀ page, Within merged page ↔ Within merged page ∨ CoversPage [] page :=
    fun _ => (or_iff_left not_coversPage_nil).symm
  unfold absorbPrevious
  obtain rfl | ⟨front,previous,rfl⟩ := List.eq_nil_or_concat regions
  · exact ⟨[],rfl,nofun,rfl,hm,Nat.le_refl _,nofun,hnone⟩
  rw [List.concat_eq_append] at *
  have hprevious := hfront previous (by simp)
  simp only [List.getLast?_concat]
  split_ifs with habsorb
  · obtain ⟨hflags,howner,htouch⟩ := habsorb
    obtain ⟨hjoined,hpages⟩ := pageAligned_joined { merged with
      startVirt := previous.startVirt
      sizeBytes := max merged.endVirt previous.endVirt - previous.startVirt } (hregions previous (by simp)) hm
      (Nat.le_of_lt hprevious) htouch rfl (by rw [Nat.max_comm])
    rw [List.dropLast_concat]
    refine ⟨[previous],rfl,?_,rfl,hjoined,Nat.le_of_lt hprevious,fun r hr => ?_,fun page => ?_⟩
    · intro r hr
      rw [List.mem_singleton.mp hr]
      exact Prod.ext hflags howner
    · exact (List.pairwise_append.mp hsorted).2.2 r hr previous List.mem_cons_self
    · rw [hpages,coversPage_cons,or_iff_left not_coversPage_nil,or_comm]
  · exact ⟨[],(List.append_nil _).symm,nofun,rfl,hm,Nat.le_refl _,fun r hr => Nat.le_of_lt (hfront r hr),hnone⟩

private theorem ofKind_eq_self {kind : PageTableFlags × FrameOwnership} (h : ∀ r ∈ regions, kindOf r = kind) :
    ofKind kind regions = regions := List.filter_eq_self.mpr fun r hr => decide_eq_true (h r hr)

private theorem ofOtherKinds_eq_nil {kind : PageTableFlags × FrameOwnership} (h : ∀ r ∈ regions, kindOf r = kind) :
    ofOtherKinds kind regions = [] :=
  List.filter_eq_nil_iff.mpr fun r hr hne => of_decide_eq_true hne (h r hr)

/-- The regions stay sorted, those of the kind of the new one cover its pages beside those they covered, and
the others are the same. -/
private theorem trackRegion_kinds (region : MappedMemoryRegion) (hsorted : regions.Pairwise fun r r' => r.startVirt ≤ r'.startVirt)
    (haligned : ∀ r ∈ regions, PageAligned r) (hsize : 0 < region.sizeBytes) :
    (trackRegion region regions).Pairwise (fun r r' => r.startVirt ≤ r'.startVirt) ∧
      (∀ page, CoversPage (ofKind (kindOf region) (trackRegion region regions)) page ↔
        CoversPage (ofKind (kindOf region) regions) page ∨ Touches region.startVirt region.endVirt page) ∧
      ofOtherKinds (kindOf region) (trackRegion region regions) = ofOtherKinds (kindOf region) regions := by
  obtain ⟨m,m',before,before',after,after',rfl,htrack,hbefore,hafter,hprevious,hnext⟩ := trackRegion_eq region regions
  rw [htrack]
  obtain ⟨hsB,hsA,hcross⟩ := List.pairwise_append.mp hsorted
  obtain ⟨haB,haA⟩ := List.forall_mem_append.mp haligned
  generalize hnew : ({ region with
    startVirt := alignDownToPageSize region.startVirt
    sizeBytes := alignToPageSize region.endVirt - alignDownToPageSize region.startVirt } : MappedMemoryRegion) = new at hprevious
  have hstart : new.startVirt = alignDownToPageSize region.startVirt := by rw [← hnew]
  have hkind : kindOf new = kindOf region := by rw [← hnew]; rfl
  obtain ⟨hnewAligned,hnewPages⟩ := aligned_widened hsize hstart (by rw [← hnew])
  obtain ⟨absorbedB,hsplitB,hkindsB,hkindM,hm,hleM,hleB,hwithinB⟩ :=
    absorbPrevious_exact ⟨hnewAligned.start,hnewAligned.size⟩ haB hsB fun r hr => hstart ▸ hbefore r hr
  rw [hprevious] at hsplitB hkindM hm hleM hleB hwithinB
  dsimp only at *
  have hbehind : ∀ r ∈ after, m.startVirt ≤ r.startVirt := by
    intro r hr
    have := hafter hsorted r hr
    omega
  obtain ⟨absorbedA,hsplitA,hkindsA,hkindM',hstartM',hwithinA⟩ := absorbNext_exact hm haA hbehind
  rw [hnext] at hsplitA hkindM' hstartM' hwithinA
  dsimp only at *
  subst hsplitB hsplitA
  rw [hkindM,hkind] at hkindM' hkindsA
  rw [hkind] at hkindsB
  refine ⟨?_,fun page => ?_,?_⟩
  · refine List.pairwise_append.mpr ⟨hsB.sublist (List.sublist_append_left ..),List.pairwise_cons.mpr ⟨fun r hr => ?_,
      hsA.sublist (List.sublist_append_right ..)⟩,fun r hr r' hr' => ?_⟩
    · rw [hstartM']
      exact hbehind r (List.mem_append_right _ hr)
    · obtain rfl | hr' := List.mem_cons.mp hr'
      · rw [hstartM']
        exact hleB r hr
      · exact hcross r (List.mem_append_left _ hr) r' (List.mem_append_right _ hr')
  · have hpages : Within new page ↔ Touches region.startVirt region.endVirt page := hnewPages page
    have hB : ofKind (kindOf region) absorbedB = absorbedB := ofKind_eq_self hkindsB
    have hA : ofKind (kindOf region) absorbedA = absorbedA := ofKind_eq_self hkindsA
    have hM : ofKind (kindOf region) [m'] = [m'] := ofKind_eq_self (List.forall_mem_singleton.mpr hkindM')
    have hlist : before' ++ m' :: after' = before' ++ [m'] ++ after' := by rw [List.append_assoc,List.singleton_append]
    rw [hlist]
    simp only [ofKind,List.filter_append] at hA hB hM ⊢
    rw [hA,hB,hM]
    simp only [coversPage_append,coversPage_cons,or_iff_left not_coversPage_nil,hwithinA,hwithinB,hpages]
    tauto
  · have hB : ofOtherKinds (kindOf region) absorbedB = [] := ofOtherKinds_eq_nil hkindsB
    have hA : ofOtherKinds (kindOf region) absorbedA = [] := ofOtherKinds_eq_nil hkindsA
    have hM : ofOtherKinds (kindOf region) [m'] = [] := ofOtherKinds_eq_nil (List.forall_mem_singleton.mpr hkindM')
    have hlist : before' ++ m' :: after' = before' ++ [m'] ++ after' := by rw [List.append_assoc,List.singleton_append]
    rw [hlist]
    simp only [ofOtherKinds,List.filter_append] at hA hB hM ⊢
    rw [hA,hB,hM,List.append_nil,List.nil_append]

/-- Two regions of code with data between them. -/
private abbrev overlapping : List MappedMemoryRegion :=
  [⟨0x1000,0x1000,{ present := true },.owned⟩,⟨0x2000,0x1000,{ present := true, writable := true },.owned⟩,
    ⟨0x4000,0x1000,{ present := true },.owned⟩]

/-- track_region is exact where the addresses fit their words. -/
theorem trackRegion_exact (p : Profile) (region : MappedMemoryRegion)
    (hsorted : regions.Pairwise fun r r' => r.startVirt ≤ r'.startVirt) (haligned : ∀ r ∈ regions, PageAligned r)
    (hsize : 0 < region.sizeBytes) (hend : region.endVirt + pageSize < 2^64) (hends : ∀ r ∈ regions, r.endVirt < 2^64) :
    ∃ regions', trackRegionWords p region regions = .ok regions' ∧ regions'.Pairwise (fun r r' => r.startVirt ≤ r'.startVirt) ∧
      (∀ page, CoversPage (ofKind (kindOf region) regions') page ↔
        CoversPage (ofKind (kindOf region) regions) page ∨ Touches region.startVirt region.endVirt page) ∧
      ofOtherKinds (kindOf region) regions' = ofOtherKinds (kindOf region) regions :=
  ⟨_,trackRegionWords_eq hsize hend hends,trackRegion_kinds region hsorted haligned hsize⟩

/-- Code that meets all three of them. -/
theorem trackRegion_exact_overlapping :
    trackRegionWords .dev ⟨0x1800,0x2810,{ present := true },.owned⟩ overlapping =
        .ok [⟨0x1000,0x4000,{ present := true },.owned⟩,⟨0x2000,0x1000,{ present := true, writable := true },.owned⟩,
          ⟨0x4000,0x1000,{ present := true },.owned⟩] ∧
      ∃ regions', trackRegionWords .dev ⟨0x1800,0x2810,{ present := true },.owned⟩ overlapping = .ok regions' ∧
        ∀ page, CoversPage (ofKind ({ present := true },.owned) regions') page ↔
          CoversPage (ofKind ({ present := true },.owned) overlapping) page ∨ Touches 0x1800 0x4010 page := by
  refine ⟨by decide +kernel,?_⟩
  have haligned : ∀ r ∈ overlapping, PageAligned r := by simp [PageAligned,pageSize]
  obtain ⟨regions',hrun,_,hpages,_⟩ := trackRegion_exact .dev ⟨0x1800,0x2810,{ present := true },.owned⟩
    (by decide) haligned (by decide) (by decide) (by decide)
  exact ⟨regions',hrun,hpages⟩

/-- A region that ends in the last page panics where overflow is checked. Elsewhere the end of its entry wraps
to zero, and the merge with the entry in front of it loses the page. -/
theorem trackRegion_wraps :
    trackRegionWords .dev ⟨0xFFFFFFFFFFFFF000,0x800,{},.owned⟩ [⟨0xFFFFFFFFFFFFE000,0x1000,{},.owned⟩] = .error .panic ∧
    trackRegionWords .release ⟨0xFFFFFFFFFFFFF000,0x800,{},.owned⟩ [⟨0xFFFFFFFFFFFFE000,0x1000,{},.owned⟩] =
      .ok [⟨0xFFFFFFFFFFFFE000,0x1000,{},.owned⟩] ∧
    Touches 0xFFFFFFFFFFFFF000 (0xFFFFFFFFFFFFF000 + 0x800) 0xFFFFFFFFFFFFF ∧
    ¬ CoversPage (ofKind ({},.owned) [⟨0xFFFFFFFFFFFFE000,0x1000,{},.owned⟩]) 0xFFFFFFFFFFFFF := by
  refine ⟨by decide +kernel,by decide +kernel,by decide,?_⟩
  change ¬ CoversPage [_] _
  rw [coversPage_cons,or_iff_left not_coversPage_nil]
  rintro ⟨-,hend⟩
  exact absurd hend (by decide)

end MofuOS.Process
