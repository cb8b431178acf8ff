import MofuOS.Process.ProcessMem

/-! Regions that lie apart stay apart when ranges are mapped and unmapped, and a range that one region
covers stays covered while no range that meets it is unmapped. -/
namespace MofuOS.Process
open Memory

variable {lo a b page : Nat} {regions rest : List MappedMemoryRegion} {region : MappedMemoryRegion}

/-- Sorted by start, and two regions do not overlap unless both end below lo. -/
def Separate (lo : Nat) (r r' : MappedMemoryRegion) : Prop :=
  r.startVirt ≤ r'.startVirt ∧ (lo ≤ r.endVirt ∨ lo ≤ r'.endVirt → r.endVirt ≤ r'.startVirt)

/-- One region covers the bytes from a to b. -/
def Covers (regions : List MappedMemoryRegion) (a b : Nat) : Prop := ∃ r ∈ regions, r.startVirt ≤ a ∧ b ≤ r.endVirt

section Carve

theorem carve_append {before after : List MappedMemoryRegion} (hbefore : ∀ r ∈ before, ¬ (r.startVirt ≤ a ∧ b ≤ r.endVirt))
    (hstart : region.startVirt ≤ a) (hend : b ≤ region.endVirt) :
    carve a b (before ++ region :: after) = some (region,before ++ pieces region a b ++ after) := by
  induction before with
  | nil => exact if_pos ⟨hstart,hend⟩
  | cons r before ih =>
    obtain ⟨hr,hbefore⟩ := List.forall_mem_cons.mp hbefore
    rw [List.cons_append,carve,if_neg hr,ih hbefore]
    rfl

theorem carve_first (h : carve a b regions = some (region,rest)) :
    ∃ before after, regions = before ++ region :: after ∧ (∀ r ∈ before, ¬ (r.startVirt ≤ a ∧ b ≤ r.endVirt)) ∧
      region.startVirt ≤ a ∧ b ≤ region.endVirt ∧ rest = before ++ pieces region a b ++ after := by
  induction regions generalizing rest with
  | nil => cases h
  | cons r regions ih =>
    rw [carve] at h
    split_ifs at h with hcovers
    · cases h
      exact ⟨[],regions,rfl,by simp,hcovers.1,hcovers.2,rfl⟩
    · obtain ⟨⟨found,rest'⟩,hfound,heq⟩ := Option.map_eq_some_iff.mp h
      cases heq
      obtain ⟨before,after,hregions,hbefore,hstart,hend,hrest⟩ := ih hfound
      exact ⟨r :: before,after,by rw [hregions]; rfl,List.forall_mem_cons.mpr ⟨hcovers,hbefore⟩,hstart,hend,by rw [hrest]; rfl⟩

theorem carve_some (h : carve a b regions = some (region,rest)) :
    ∃ before after, regions = before ++ region :: after ∧ region.startVirt ≤ a ∧ b ≤ region.endVirt ∧
      rest = before ++ pieces region a b ++ after := by
  obtain ⟨before,after,hregions,-,hcovers⟩ := carve_first h
  exact ⟨before,after,hregions,hcovers⟩

theorem carve_none : carve a b regions = none ↔ ¬ Covers regions a b := by
  induction regions with
  | nil => exact ⟨fun _ ⟨_,hr,_⟩ => (List.not_mem_nil hr).elim,fun _ => rfl⟩
  | cons r regions ih =>
    have hcons : Covers (r :: regions) a b ↔ r.startVirt ≤ a ∧ b ≤ r.endVirt ∨ Covers regions a b := by
      simp [Covers]
    rw [carve,hcons]
    split_ifs with hcovers
    · exact ⟨nofun,fun h => absurd (.inl hcovers) h⟩
    · rw [Option.map_eq_none_iff,ih]
      exact ⟨fun h hor => hor.elim (fun hr => hcovers hr) h,fun h hr => h (.inr hr)⟩

theorem mem_pieces {piece : MappedMemoryRegion} (h : piece ∈ pieces region a b) :
    region.startVirt < a ∧ piece.startVirt = region.startVirt ∧ piece.endVirt = a ∨
      b < region.endVirt ∧ piece.startVirt = b ∧ piece.endVirt = region.endVirt := by
  obtain h | h := List.mem_append.mp h
  · split_ifs at h with hlt
    · refine .inl ⟨hlt,?_⟩
      rw [List.mem_singleton.mp h]
      simp only [MappedMemoryRegion.endVirt,true_and]
      omega
    · cases h
  · split_ifs at h with hlt
    · refine .inr ⟨hlt,?_⟩
      rw [List.mem_singleton.mp h]
      simp only [MappedMemoryRegion.endVirt,true_and] at hlt ⊢
      omega
    · cases h

private theorem separate_pieces (hab : a ≤ b) :
    (pieces region a b).Pairwise (Separate lo) := by
  have hpieces : ∀ x ∈ (if region.startVirt < a then [{ region with sizeBytes := a - region.startVirt }] else []),
      ∀ y ∈ (if b < region.endVirt then [{ region with startVirt := b, sizeBytes := region.endVirt - b }] else []),
      Separate lo x y := by
    intro x hx y hy
    split_ifs at hx hy with hl hr
    · rw [List.mem_singleton.mp hx,List.mem_singleton.mp hy]
      simp only [Separate,MappedMemoryRegion.endVirt]
      omega
    · exact (List.not_mem_nil hy).elim
    · exact (List.not_mem_nil hx).elim
    · exact (List.not_mem_nil hx).elim
  refine List.pairwise_append.mpr ⟨?_,?_,hpieces⟩
  · split_ifs <;> simp
  · split_ifs <;> simp

/-- Carving a range above lo out of separate regions leaves them separate. -/
theorem separate_carve (h : regions.Pairwise (Separate lo)) (hlo : lo ≤ a) (hab : a ≤ b)
    (hcarve : carve a b regions = some (region,rest)) : rest.Pairwise (Separate lo) := by
  obtain ⟨before,after,rfl,hstart,hend,rfl⟩ := carve_some hcarve
  obtain ⟨hbefore,htail,hcross⟩ := List.pairwise_append.mp h
  obtain ⟨hregion,hafter⟩ := List.pairwise_cons.mp htail
  have hleft : ∀ x ∈ before, ∀ piece ∈ pieces region a b, Separate lo x piece := by
    intro x hx piece hpiece
    have hxr := hcross x hx region List.mem_cons_self
    unfold Separate at hxr ⊢
    obtain ⟨_,hs,he⟩ | ⟨_,hs,he⟩ := mem_pieces hpiece <;> omega
  have hright : ∀ piece ∈ pieces region a b, ∀ y ∈ after, Separate lo piece y := by
    intro piece hpiece y hy
    have hry := hregion y hy
    unfold Separate at hry ⊢
    obtain ⟨_,hs,he⟩ | ⟨_,hs,he⟩ := mem_pieces hpiece <;> omega
  rw [List.append_assoc]
  refine List.pairwise_append.mpr ⟨hbefore,List.pairwise_append.mpr ⟨separate_pieces hab,hafter,hright⟩,?_⟩
  intro x hx y hy
  obtain hy | hy := List.mem_append.mp hy
  · exact hleft x hx y hy
  · exact hcross x hx y (List.mem_cons_of_mem _ hy)

end Carve

section Track
variable {merged : MappedMemoryRegion}

private theorem absorbNext_spec (hsep : regions.Pairwise (Separate lo)) (hpos : ∀ r ∈ regions, 0 < r.sizeBytes)
    (hlo : lo ≤ merged.endVirt) (hbehind : ∀ r ∈ regions, merged.endVirt ≤ r.startVirt) :
    ∃ absorbed, regions = absorbed ++ (absorbNext merged regions).2 ∧
      (absorbNext merged regions).1.startVirt = merged.startVirt ∧ merged.endVirt ≤ (absorbNext merged regions).1.endVirt ∧
      (∀ r ∈ absorbed, merged.startVirt ≤ r.startVirt ∧ r.endVirt ≤ (absorbNext merged regions).1.endVirt) ∧
      (∀ r ∈ (absorbNext merged regions).2, (absorbNext merged regions).1.endVirt ≤ r.startVirt) ∧
      ∀ page, Touches merged.startVirt (absorbNext merged regions).1.endVirt page →
        Touches merged.startVirt merged.endVirt page ∨ ∃ r ∈ absorbed, Touches r.startVirt r.endVirt page := by
  induction regions generalizing merged with
  | nil => exact ⟨[],rfl,rfl,Nat.le_refl _,nofun,nofun,fun _ h => .inl h⟩
  | cons next regions ih =>
    obtain ⟨hnext,hsep⟩ := List.pairwise_cons.mp hsep
    have hstart := hbehind next List.mem_cons_self
    have hsize := hpos next List.mem_cons_self
    rw [absorbNext]
    split_ifs with habsorb
    · have hend : max merged.endVirt next.endVirt = next.endVirt := by
        rw [MappedMemoryRegion.endVirt,MappedMemoryRegion.endVirt] at *
        omega
      rw [hend]
      generalize hmerged : ({ merged with sizeBytes := next.endVirt - merged.startVirt } : MappedMemoryRegion) = merged'
      have hstart' : merged'.startVirt = merged.startVirt := by rw [← hmerged]
      have hend' : merged'.endVirt = next.endVirt := by
        rw [← hmerged]
        simp only [MappedMemoryRegion.endVirt] at *
        omega
      have hlo' : lo ≤ merged'.endVirt := by
        rw [hend']
        simp only [MappedMemoryRegion.endVirt] at *
        omega
      have hbehind' : ∀ r ∈ regions, merged'.endVirt ≤ r.startVirt := by
        intro r hr
        rw [hend']
        exact (hnext r hr).2 (.inl (hend' ▸ hlo'))
      obtain ⟨absorbed,hregions,hs,he,habsorbed,hrest,htouch⟩ :=
        ih hsep (fun r hr => hpos r (List.mem_cons_of_mem _ hr)) hlo' hbehind'
      rw [hstart'] at hs habsorbed htouch
      rw [hend'] at he htouch
      refine ⟨next :: absorbed,by rw [List.cons_append,← hregions],hs,?_,?_,hrest,?_⟩
      · simp only [MappedMemoryRegion.endVirt] at *
        omega
      · intro r hr
        obtain rfl | hr := List.mem_cons.mp hr
        · refine ⟨?_,he⟩
          simp only [MappedMemoryRegion.endVirt] at *
          omega
        · exact habsorbed r hr
      · intro page hpage
        obtain hpage | ⟨r,hr,hpage⟩ := htouch page hpage
        · by_cases hfirst : page * pageSize < merged.endVirt
          · exact .inl ⟨hpage.1,hfirst⟩
          · refine .inr ⟨next,List.mem_cons_self,?_,hpage.2⟩
            have := habsorb.2.2
            simp only [pageSize] at *
            omega
        · exact .inr ⟨r,List.mem_cons_of_mem _ hr,hpage⟩
    · refine ⟨[],rfl,rfl,Nat.le_refl _,nofun,?_,fun _ h => .inl h⟩
      exact hbehind

private theorem absorbPrevious_spec (hsep : regions.Pairwise (Separate lo)) (hlo : lo ≤ merged.startVirt)
    (hbefore : ∀ r ∈ regions, r.endVirt ≤ merged.startVirt) :
    ∃ absorbed, regions = (absorbPrevious merged regions).2 ++ absorbed ∧
      (absorbPrevious merged regions).1.endVirt = merged.endVirt ∧
      (absorbPrevious merged regions).1.startVirt ≤ merged.startVirt ∧
      (∀ r ∈ absorbed, (absorbPrevious merged regions).1.startVirt ≤ r.startVirt ∧ r.endVirt ≤ merged.endVirt) ∧
      (∀ r ∈ (absorbPrevious merged regions).2, r.endVirt ≤ (absorbPrevious merged regions).1.startVirt) ∧
      ∀ page, Touches (absorbPrevious merged regions).1.startVirt merged.endVirt page →
        Touches merged.startVirt merged.endVirt page ∨ ∃ r ∈ absorbed, Touches r.startVirt r.endVirt page := by
  unfold absorbPrevious
  obtain rfl | ⟨front,previous,rfl⟩ := List.eq_nil_or_concat regions
  · exact ⟨[],rfl,rfl,Nat.le_refl _,nofun,nofun,fun _ h => .inl h⟩
  rw [List.concat_eq_append] at *
  have hprevious := hbefore previous (by simp)
  simp only [List.getLast?_concat]
  split_ifs with habsorb
  · have hend := Nat.le_antisymm hprevious habsorb.2.2
    have hmax : max merged.endVirt previous.endVirt = merged.endVirt := by
      simp only [MappedMemoryRegion.endVirt] at *
      omega
    have hpos : previous.startVirt + (merged.endVirt - previous.startVirt) = merged.endVirt := by
      simp only [MappedMemoryRegion.endVirt] at *
      omega
    simp only [hmax,List.dropLast_concat]
    refine ⟨[previous],rfl,hpos,?_,?_,?_,?_⟩
    · simp only [MappedMemoryRegion.endVirt] at *
      omega
    · intro r hr
      rw [List.mem_singleton.mp hr]
      simp only [MappedMemoryRegion.endVirt] at *
      omega
    · intro r hr
      exact ((List.pairwise_append.mp hsep).2.2 r hr previous List.mem_cons_self).2 (.inr (by omega))
    · intro page hpage
      by_cases hlast : merged.startVirt < (page + 1) * pageSize
      · exact .inl ⟨hlast,hpage.2⟩
      · refine .inr ⟨previous,List.mem_cons_self,hpage.1,?_⟩
        simp only [pageSize] at *
        omega
  · exact ⟨[],(List.append_nil _).symm,rfl,Nat.le_refl _,nofun,hbefore,fun _ h => .inl h⟩

private theorem align_of_dvd (h : pageSize ∣ a) : alignDownToPageSize a = a ∧ alignToPageSize a = a := by
  obtain ⟨k,rfl⟩ := h
  simp only [alignDownToPageSize,alignToPageSize,pageSize]
  omega

/-- A range of whole pages is tracked as it is. -/
theorem widened_eq (hstart : pageSize ∣ region.startVirt) (hend : pageSize ∣ region.endVirt) : { region with
    startVirt := alignDownToPageSize region.startVirt
    sizeBytes := alignToPageSize region.endVirt - alignDownToPageSize region.startVirt } = region := by
  rw [(align_of_dvd hstart).1,(align_of_dvd hend).2]
  simp [MappedMemoryRegion.endVirt]

theorem dropWhile_start (hsep : regions.Pairwise fun r r' => r.startVirt ≤ r'.startVirt) (a : Nat) :
    ∀ r ∈ regions.dropWhile (fun r => decide (r.startVirt < a)), a ≤ r.startVirt := by
  induction regions with
  | nil => nofun
  | cons r regions ih =>
    obtain ⟨hr,hsep⟩ := List.pairwise_cons.mp hsep
    by_cases hlt : r.startVirt < a
    · simpa [List.dropWhile_cons,hlt] using ih hsep
    · intro r' hr'
      simp only [List.dropWhile_cons,hlt,decide_false,Bool.false_eq_true,if_false] at hr'
      obtain rfl | hr' := List.mem_cons.mp hr'
      · exact Nat.not_lt.mp hlt
      · exact Nat.le_trans (Nat.not_lt.mp hlt) (hr r' hr')

/-- A new range above lo that meets no region is covered afterwards, what was covered stays covered and
nothing else is touched. -/
theorem trackRegion_spec (hsep : regions.Pairwise (Separate lo)) (hpos : ∀ r ∈ regions, 0 < r.sizeBytes)
    (hlo : lo ≤ region.startVirt) (hsize : 0 < region.sizeBytes) (hstart : pageSize ∣ region.startVirt)
    (hend : pageSize ∣ region.endVirt) (hapart : ∀ r ∈ regions, r.endVirt ≤ region.startVirt ∨ region.endVirt ≤ r.startVirt) :
    (trackRegion region regions).Pairwise (Separate lo) ∧ (∀ r ∈ trackRegion region regions, 0 < r.sizeBytes) ∧
      Covers (trackRegion region regions) region.startVirt region.endVirt ∧
      (∀ c d, Covers regions c d → Covers (trackRegion region regions) c d) ∧
      ∀ r ∈ trackRegion region regions, ∀ page, Touches r.startVirt r.endVirt page →
        Touches region.startVirt region.endVirt page ∨ ∃ r ∈ regions, Touches r.startVirt r.endVirt page := by
  have haligned := widened_eq hstart hend
  have htrack : trackRegion region regions =
      (absorbPrevious region (regions.takeWhile fun r => decide (r.startVirt < region.startVirt))).2 ++
        (absorbNext (absorbPrevious region (regions.takeWhile fun r => decide (r.startVirt < region.startVirt))).1
          (regions.dropWhile fun r => decide (r.startVirt < region.startVirt))).1 ::
        (absorbNext (absorbPrevious region (regions.takeWhile fun r => decide (r.startVirt < region.startVirt))).1
          (regions.dropWhile fun r => decide (r.startVirt < region.startVirt))).2 := by
    conv_rhs => rw [← haligned]
    simp only [trackRegion,(align_of_dvd hstart).1]
  rw [htrack]
  have hsplit : regions.takeWhile (fun r => decide (r.startVirt < region.startVirt)) ++
      regions.dropWhile (fun r => decide (r.startVirt < region.startVirt)) = regions := List.takeWhile_append_dropWhile
  have htake : ∀ r ∈ regions.takeWhile (fun r => decide (r.startVirt < region.startVirt)), r.startVirt < region.startVirt :=
    fun r hr => by simpa using List.all_eq_true.mp List.all_takeWhile r hr
  have hdrop := dropWhile_start (hsep.imp And.left) region.startVirt
  generalize regions.takeWhile (fun r => decide (r.startVirt < region.startVirt)) = before at *
  generalize regions.dropWhile (fun r => decide (r.startVirt < region.startVirt)) = after at *
  subst hsplit
  have hregion : region.startVirt < region.endVirt := Nat.lt_add_of_pos_right hsize
  have hbefore : ∀ r ∈ before, r.endVirt ≤ region.startVirt := by
    intro r hr
    have := htake r hr
    have := hapart r (List.mem_append_left _ hr)
    omega
  have hafter : ∀ r ∈ after, region.endVirt ≤ r.startVirt := by
    intro r hr
    have := hdrop r hr
    have := hapart r (List.mem_append_right _ hr)
    have := hpos r (List.mem_append_right _ hr)
    simp only [MappedMemoryRegion.endVirt] at *
    omega
  obtain ⟨hsepB,hsepA,_⟩ := List.pairwise_append.mp hsep
  obtain ⟨absorbedP,hP,hendP,hstartP,habsorbedP,hrestP,htouchP⟩ := absorbPrevious_spec hsepB hlo hbefore
  generalize absorbPrevious region before = first at *
  obtain ⟨m,before'⟩ := first
  dsimp only at *
  obtain ⟨absorbedN,hN,hstartN,hendN,habsorbedN,hrestN,htouchN⟩ := absorbNext_spec hsepA
    (fun r hr => hpos r (List.mem_append_right _ hr)) (show lo ≤ m.endVirt by omega) (by rw [hendP]; exact hafter)
  generalize absorbNext m after = second at *
  obtain ⟨m',after'⟩ := second
  dsimp only at *
  subst hP hN
  refine ⟨?_,?_,?_,?_,?_⟩
  · have hB := (List.pairwise_append.mp hsepB).1
    have hA := (List.pairwise_append.mp hsepA).2.1
    refine List.pairwise_append.mpr ⟨hB,List.pairwise_cons.mpr ⟨?_,hA⟩,?_⟩
    · intro r hr
      have hbehind := hrestN r hr
      have : m'.startVirt ≤ m'.endVirt := Nat.le_add_right ..
      exact ⟨by omega,fun _ => hbehind⟩
    · intro r hr r' hr'
      have hbelow := hrestP r hr
      have : r.startVirt ≤ r.endVirt := Nat.le_add_right ..
      obtain rfl | hr' := List.mem_cons.mp hr'
      · exact ⟨by omega,fun _ => by omega⟩
      · have := hrestN r' hr'
        have : m'.startVirt ≤ m'.endVirt := Nat.le_add_right ..
        exact ⟨by omega,fun _ => by omega⟩
  · intro r hr
    obtain hr | hr := List.mem_append.mp hr
    · exact hpos r (by simp [hr])
    obtain rfl | hr := List.mem_cons.mp hr
    · simp only [MappedMemoryRegion.endVirt] at *
      omega
    · exact hpos r (by simp [hr])
  · exact ⟨m',by simp,by omega,by omega⟩
  · rintro c d ⟨r,hr,hc,hd⟩
    simp only [List.mem_append] at hr
    obtain (hr | hr) | hr | hr := hr
    · exact ⟨r,by simp [hr],hc,hd⟩
    · have := habsorbedP r hr
      exact ⟨m',by simp,by omega,by omega⟩
    · have := habsorbedN r hr
      exact ⟨m',by simp,by omega,by omega⟩
    · exact ⟨r,by simp [hr],hc,hd⟩
  · intro r hr page hpage
    obtain hr | hr := List.mem_append.mp hr
    · exact .inr ⟨r,by simp [hr],hpage⟩
    obtain rfl | hr := List.mem_cons.mp hr
    · rw [hstartN] at hpage
      obtain hpage | ⟨r',hr',hpage⟩ := htouchN page hpage
      · rw [hendP] at hpage
        obtain hpage | ⟨r',hr',hpage⟩ := htouchP page hpage
        · exact .inl hpage
        · exact .inr ⟨r',by simp [hr'],hpage⟩
      · exact .inr ⟨r',by simp [hr'],hpage⟩
    · exact .inr ⟨r,by simp [hr],hpage⟩

end Track
end MofuOS.Process
