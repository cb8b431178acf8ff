import MofuOS.Filesystem.Fat32.StaleHandle
import MofuOS.Filesystem.Fat32.Fresh

/-! The chain that allocate_clusters builds. A cluster is marked as used only once the next one has been looked
for, so that every other round of its loop finds the cluster it has just linked and links that to itself. -/
namespace MofuOS.Filesystem.Fat32.Fat32Driver
open Lib Io
open Prog (liftO)

variable {drv : Fat32Driver} {v : FatView} {s : Disk} {prev count : Nat}

theorem findFreeCluster_readOnly (drv : Fat32Driver) : Prog.ReadOnly (findFreeCluster drv) := by
  rw [findFreeCluster]
  generalize List.range' rootCluster (drv.maxCluster - rootCluster) = l
  induction l with
  | nil => exact .fail _
  | cons c l ih =>
    refine (readFatEntry_readOnly drv c).bind fun fatEntry => ?_
    split_ifs
    · exact .pure c
    · exact ih

section Links
variable {n k c : Nat} {l rest : List Nat}

/-- The n rounds of the loop behind prev leave a chain, once it is ended, of prev and the clusters of l. -/
private def ChainBehind (drv : Fat32Driver) (v : FatView) (prev n : Nat) (l : List Nat) : Prop :=
  ∃ last w, (onDisk drv).Runs (allocateMore drv prev n) v (.ok last) w ∧ inVolume drv last = true ∧
    LinkedChain (w.setFat last endOfChain).next prev (prev :: l) ∧
    ∀ c, c ∉ prev :: l → (w.setFat last endOfChain).fat c = v.fat c

/-- They run out of free clusters, with prev and all that was in use marked as used. -/
private def RanOut (drv : Fat32Driver) (v : FatView) (prev n : Nat) : Prop :=
  ∃ w, (onDisk drv).Runs (allocateMore drv prev n) v (.error .noSpace) w ∧ ∀ c, c = prev ∨ v.fat c ≠ 0 → w.fat c ≠ 0

/-- They take the first k of the other free clusters, or there are fewer. -/
private def Links (drv : Fat32Driver) (v : FatView) (prev n : Nat) (rest : List Nat) (k : Nat) : Prop :=
  (k ≤ rest.length ∧ ChainBehind drv v prev n (rest.take k)) ∨ (rest.length < k ∧ RanOut drv v prev n)

private theorem links_zero (v : FatView) (rest : List Nat) (hp : inVolume drv prev) : Links drv v prev 0 rest 0 := by
  refine .inl ⟨Nat.zero_le _,prev,v,.pure prev v,hp,.last ?_,fun c hc => ?_⟩
  · rw [FatView.next_setFat_end,Function.update_self]
  · exact Function.update_of_ne (fun e => hc (List.mem_cons.mpr (.inl e))) ..

variable (G : Geometry drv)
include G

private theorem findFreeCluster_head {x : Nat} (h : freeClusters drv v = x :: rest) :
    (onDisk drv).Runs (findFreeCluster drv) v (.ok x) v := by
  rcases findFreeCluster_runs G (v := v) with ⟨y,r,hy,hrun⟩ | ⟨hnil,-⟩
  · cases h.symm.trans hy
    exact hrun
  · cases h.symm.trans hnil

private theorem findFreeCluster_none (h : freeClusters drv v = []) :
    (onDisk drv).Runs (findFreeCluster drv) v (.error .noSpace) v := by
  rcases findFreeCluster_runs G (v := v) with ⟨y,r,hy,-⟩ | ⟨-,hrun⟩
  · cases h.symm.trans hy
  · exact hrun

private theorem number_fits (hc : inVolume drv c) : c ≠ 0 ∧ c < fatEntryReservedBegin := by
  have hr := inVolume_iff.mp hc
  have hmax := G.maxCluster
  rw [fatEntryReservedBegin]
  omega

private theorem link_runs {x : Nat} (hc : inVolume drv c) (hx : inVolume drv x) :
    (onDisk drv).Runs (writeFatEntry drv c x) v (.ok ()) (v.setFat c x) :=
  writeFatEntry_runs G (inVolume_iff.mp hc).2
    (Nat.lt_trans (number_fits G hx).2 (by decide : fatEntryReservedBegin < 2^28))

/-- A round that finds the cluster it is to link behind again: it is linked to itself. -/
private theorem links_again (hp : inVolume drv prev) (hfree : freeClusters drv v = prev :: rest)
    (h : Links drv (v.setFat prev prev) prev n rest k) : Links drv v prev (n + 1) rest k := by
  have hfind := findFreeCluster_head G hfree
  have hwrite := link_runs G (v := v) hp hp
  rcases h with ⟨hk,last,w,hrun,hlast,hchain,hothers⟩ | ⟨hk,w,hrun,hkeep⟩
  · refine .inl ⟨hk,last,w,hfind.bind (hwrite.bind hrun),hlast,hchain,fun c hc => ?_⟩
    rw [hothers c hc,FatView.setFat_fat,Function.update_of_ne (List.ne_of_not_mem_cons hc)]
  · refine .inr ⟨hk,w,hfind.bind (hwrite.bind hrun),fun c hc => hkeep c ?_⟩
    by_cases hcp : c = prev
    · exact .inl hcp
    · rw [FatView.setFat_fat,Function.update_of_ne hcp]
      exact .inr (hc.resolve_left hcp)

/-- A round that finds a cluster nobody has taken yet. -/
private theorem links_next {next : Nat} (hp : inVolume drv prev) (hused : v.fat prev ≠ 0)
    (hfree : freeClusters drv v = next :: rest) (h : Links drv (v.setFat prev next) next n rest k) :
    Links drv v prev (n + 1) (next :: rest) (k + 1) := by
  have hnext := (mem_freeClusters.mp (hfree ▸ List.mem_cons_self)).1
  have hne := number_fits G hnext
  have hfind := findFreeCluster_head G hfree
  have hwrite := link_runs G (v := v) hp hnext
  rcases h with ⟨hk,last,w,hrun,hlast,hchain,hothers⟩ | ⟨hk,w,hrun,hkeep⟩
  · have hout : prev ∉ next :: rest.take k := by
      intro hmem
      have hin : prev ∈ freeClusters drv v := by
        rw [hfree]
        exact (List.take_sublist (k + 1) (next :: rest)).subset hmem
      exact hused (mem_freeClusters.mp hin).2
    have hlink : (w.setFat last endOfChain).fat prev = next := by
      rw [hothers prev hout,FatView.setFat_fat,Function.update_self]
    refine .inl ⟨Nat.succ_le_succ hk,last,w,hfind.bind (hwrite.bind hrun),hlast,.step ?_ hchain,fun c hc => ?_⟩
    · rw [FatView.next,hlink,if_neg (Nat.not_le.mpr hne.2)]
    · rw [hothers c (List.not_mem_of_not_mem_cons hc),FatView.setFat_fat,
        Function.update_of_ne (List.ne_of_not_mem_cons hc)]
  · refine .inr ⟨Nat.succ_lt_succ hk,w,hfind.bind (hwrite.bind hrun),fun c hc => hkeep c (.inr ?_)⟩
    by_cases hcp : c = prev
    · rw [hcp,FatView.setFat_fat,Function.update_self]
      exact hne.1
    · rw [FatView.setFat_fat,Function.update_of_ne hcp]
      exact hc.resolve_left hcp

private theorem links_full (hused : v.fat prev ≠ 0) (hfree : freeClusters drv v = []) (n k : Nat) :
    Links drv v prev (n + 1) [] (k + 1) :=
  .inr ⟨Nat.zero_lt_succ k,v,(findFreeCluster_none G hfree).bind_error,fun _ hc => hc.elim (fun e => e ▸ hused) id⟩

/-- The two kinds of rounds take turns: a cluster that is still free is found again, one that is used is followed by
the next free one. -/
private theorem allocateMore_links (n : Nat) : ∀ (v : FatView) (prev : Nat) (rest : List Nat), inVolume drv prev = true →
    (freeClusters drv v = prev :: rest → Links drv v prev n rest (n / 2)) ∧
      (v.fat prev ≠ 0 → freeClusters drv v = rest → Links drv v prev n rest ((n + 1) / 2)) := by
  induction n with
  | zero => exact fun v prev rest hp => ⟨fun _ => links_zero v rest hp,fun _ _ => links_zero v rest hp⟩
  | succ n ih =>
    intro v prev rest hp
    have hprev : (v.setFat prev prev).fat prev ≠ 0 := by
      rw [FatView.setFat_fat,Function.update_self]
      exact (number_fits G hp).1
    refine ⟨fun hfree => links_again G hp hfree ((ih _ prev rest hp).2 hprev ?_),fun hused hfree => ?_⟩
    · exact freeClusters_tail hfree hprev fun y hy _ => by rw [FatView.setFat_fat,Function.update_of_ne hy]
    · rw [show (n + 1 + 1) / 2 = n / 2 + 1 by omega]
      cases rest with
      | nil => exact links_full G hused hfree n _
      | cons next rest =>
        have hnext := (mem_freeClusters.mp (hfree ▸ List.mem_cons_self)).1
        refine links_next G hp hused hfree ((ih _ next rest hnext).1 ?_)
        rw [← hfree]
        refine freeClusters_congr fun y _ => ?_
        by_cases hy : y = prev
        · rw [hy,FatView.setFat_fat,Function.update_self]
          exact iff_of_false (number_fits G hnext).1 hused
        · rw [FatView.setFat_fat,Function.update_of_ne hy]

/-- One cluster is used for every two that were asked for. -/
theorem allocateClusters_exact {first : Nat} (hfree : freeClusters drv v = first :: rest) (hcount : 1 ≤ count) :
    ((count - 1) / 2 ≤ rest.length ∧ ∃ w, (onDisk drv).Runs (allocateClusters drv count) v (.ok first) w ∧
        LinkedChain w.next first (first :: rest.take ((count - 1) / 2)) ∧
        ∀ c, c ∉ first :: rest.take ((count - 1) / 2) → w.fat c = v.fat c) ∨
      (rest.length < (count - 1) / 2 ∧ ∃ w, (onDisk drv).Runs (allocateClusters drv count) v (.error .noSpace) w ∧
        w.fat first ≠ 0) := by
  have hfirst := (mem_freeClusters.mp (hfree ▸ List.mem_cons_self)).1
  have hfind := findFreeCluster_head G hfree
  rw [allocateClusters,if_neg (by omega)]
  rcases (allocateMore_links G (count - 1) v first rest hfirst).1 hfree with
    ⟨hk,last,w,hrun,hlast,hchain,hothers⟩ | ⟨hk,w,hrun,hkeep⟩
  · have hend := writeFatEntry_runs G (v := w) (inVolume_iff.mp hlast).2 (show endOfChain < 2^28 by decide)
    exact .inl ⟨hk,_,hfind.bind (hrun.bind (hend.bind (.pure first _))),hchain,hothers⟩
  · exact .inr ⟨hk,w,hfind.bind hrun.bind_error,hkeep first (.inl rfl)⟩

end Links

/-- The four bytes of a FAT entry. -/
def fatEntryBytes (drv : Fat32Driver) (s : Disk) (c : Nat) : List UInt8 := slice s.data (fatOffset drv c) 4

/-- An allocation that succeeds chains count clusters that were free, one that finds too few of them changes no entry. -/
structure BuildsFreshChain (drv : Fat32Driver) (count : Nat) (s : Disk) : Prop where
  built : ∀ first t, allocateClusters drv count s = .ok (.ok first,t) →
    ∃ l, Chained drv (viewOf drv t) first l ∧ l.Nodup ∧ l.length = count ∧ (∀ c ∈ l, (viewOf drv s).fat c = 0) ∧
      ∀ c, c ∉ l → fatEntryBytes drv t c = fatEntryBytes drv s c
  refused : ∀ t, allocateClusters drv count s = .ok (.error .noSpace,t) → ∀ c, fatEntryBytes drv t c = fatEntryBytes drv s c

section Disk
variable {c x : Nat} {t : Disk} {rest : List Nat}

private theorem fat_of_bytes (h : fatEntryBytes drv t c = fatEntryBytes drv s c) : (viewOf drv t).fat c = (viewOf drv s).fat c := by
  rw [fatEntryBytes,fatEntryBytes] at h
  show fatOf drv t.data c = fatOf drv s.data c
  rw [fatOf,fatOf,h]

/-- Writing one entry spares the bytes of all others. -/
private theorem fatEntryBytes_overwrite {b : List UInt8} (hb : b.length = 4) (hx : fatOffset drv x ≤ s.data.length) (hc : c ≠ x) :
    fatEntryBytes drv ⟨overwrite s.data (fatOffset drv x) b⟩ c = fatEntryBytes drv s c := by
  refine slice_overwrite_of_disjoint hx ?_
  rw [hb,fatOffset,fatOffset]
  omega

private theorem findFreeCluster_state (hs : Holds drv s) {r : Except FileSystemError Nat} {w : FatView}
    (h : (onDisk drv).Runs (findFreeCluster drv) (viewOf drv s) r w) : findFreeCluster drv s = .ok (r,s) := by
  obtain ⟨t,ht,-⟩ := h s hs rfl
  rw [ht,findFreeCluster_readOnly drv s t r ht]

variable (G : Geometry drv) (hs : Holds drv s)
include G hs

/-- A single cluster is ended where it was found. -/
private theorem allocateClusters_one (hfree : freeClusters drv (viewOf drv s) = x :: rest) : BuildsFreshChain drv 1 s := by
  have hx := mem_freeClusters.mp (hfree ▸ List.mem_cons_self)
  obtain ⟨-,w,hruns,hchain,-⟩ | ⟨hlt,-⟩ := allocateClusters_exact G hfree (Nat.le_refl 1)
  · have hstate : ∃ b, b.length = 4 ∧ fatOffset drv x ≤ s.data.length ∧
        allocateClusters drv 1 s = .ok (.ok x,⟨overwrite s.data (fatOffset drv x) b⟩) := by
      have hnomore : allocateMore drv x (1 - 1) s = .ok (.ok x,s) := rfl
      rw [allocateClusters,if_neg Nat.one_ne_zero,Prog.run_bind_ok (findFreeCluster_state hs (findFreeCluster_head G hfree)),
        Prog.run_bind_ok hnomore]
      obtain ⟨hnone,-⟩ | ⟨hle,b,hb,-,hw⟩ := writeFatEntry_cases G.bytesPerSector x endOfChain s
      · rw [fatEntryOn_of_holds G hs (inVolume_iff.mp hx.1).2] at hnone
        cases hnone
      · refine ⟨b,hb,?_,by rw [Prog.run_bind_ok hw]; rfl⟩
        rw [fatOffset]
        omega
    obtain ⟨b,hb,hle,hrun⟩ := hstate
    obtain ⟨-,-,rfl⟩ := hruns.returns hs hrun
    refine ⟨fun first t ht => ?_,fun t ht => by rw [hrun] at ht; cases ht⟩
    rw [hrun] at ht
    cases ht
    refine ⟨[x],⟨hchain,?_⟩,List.nodup_singleton x,rfl,?_,fun c hc => ?_⟩
    · exact fun y hy => by rw [List.mem_singleton.mp hy]; exact hx.1
    · exact fun y hy => by rw [List.mem_singleton.mp hy]; exact hx.2
    · exact fatEntryBytes_overwrite hb hle fun e => hc (List.mem_singleton.mpr e)
  · exact absurd hlt (Nat.not_lt_zero _)

/-- Without a free cluster the disk stays as it is. -/
private theorem allocateClusters_none (hfree : freeClusters drv (viewOf drv s) = []) (hcount : 1 ≤ count) :
    BuildsFreshChain drv count s := by
  have hrun : allocateClusters drv count s = .ok (.error .noSpace,s) := by
    rw [allocateClusters,if_neg (by omega)]
    exact Prog.run_bind_error (findFreeCluster_state hs (findFreeCluster_none G hfree))
  refine ⟨fun first t ht => ?_,fun t ht c => ?_⟩
  · rw [hrun] at ht
    cases ht
  · rw [hrun] at ht
    cases ht
    rfl

/-- With a second cluster asked for, the chain is too short or a failure comes too late. -/
private theorem not_builds_more (hfree : freeClusters drv (viewOf drv s) = x :: rest) (hcount : 1 < count) :
    ¬ BuildsFreshChain drv count s := by
  intro h
  have hx := mem_freeClusters.mp (hfree ▸ List.mem_cons_self)
  rcases allocateClusters_exact G hfree (Nat.le_of_lt hcount) with ⟨hk,w,hrun,hchain,-⟩ | ⟨-,w,hrun,hused⟩
  · obtain ⟨t,ht,-,rfl⟩ := hrun s hs rfl
    obtain ⟨l,hl,-,hlen,-⟩ := h.built x t ht
    rw [hl.linked.unique hchain,List.length_cons,List.length_take,Nat.min_eq_left hk] at hlen
    omega
  · obtain ⟨t,ht,-,rfl⟩ := hrun s hs rfl
    exact hused ((fat_of_bytes (h.refused t ht x)).trans hx.2)

/-- An allocation keeps what it promises exactly when it is for one cluster or no cluster is free. -/
theorem allocateClusters_fresh_iff (hcount : 1 ≤ count) :
    BuildsFreshChain drv count s ↔ count = 1 ∨ freeClusters drv (viewOf drv s) = [] := by
  cases hfree : freeClusters drv (viewOf drv s) with
  | nil => exact iff_of_true (allocateClusters_none G hs hfree hcount) (.inr rfl)
  | cons x rest =>
    obtain rfl | hlt := Nat.eq_or_lt_of_le hcount
    · exact iff_of_true (allocateClusters_one G hs hfree) (.inl rfl)
    · exact iff_of_false (not_builds_more G hs hfree hlt) fun h => h.elim (fun h1 => by omega) nofun

end Disk

theorem allocateClusters_fresh_iff_small : Geometry smallDriver ∧ Holds smallDriver smallVolume ∧ (BuildsFreshChain smallDriver 3 smallVolume ↔
    3 = 1 ∨ freeClusters smallDriver (viewOf smallDriver smallVolume) = []) :=
  have h := smallVolume_fresh .dev
  ⟨h.geometry,h.holds,allocateClusters_fresh_iff h.geometry h.holds (by decide)⟩

/-- Two clusters are asked for, and cluster 3 is found both times. -/
theorem second_cluster_found_again : Geometry smallDriver ∧ Holds smallDriver smallVolume ∧
    (∃ t, allocateClusters smallDriver 2 smallVolume = .ok (.ok 3,t) ∧ Chained smallDriver (viewOf smallDriver t) 3 [3]) ∧
    ¬ BuildsFreshChain smallDriver 2 smallVolume := by
  have G := (smallVolume_fresh .dev).geometry
  have hs := (smallVolume_fresh .dev).holds
  have hfree : freeClusters smallDriver (viewOf smallDriver smallVolume) = 3 :: [4,5,6,7] := by decide +kernel
  refine ⟨G,hs,?_,not_builds_more G hs hfree (by decide)⟩
  rcases allocateClusters_exact G hfree (show 1 ≤ 2 by decide) with ⟨-,w,hrun,hchain,-⟩ | ⟨hlt,-⟩
  · obtain ⟨t,ht,-,rfl⟩ := hrun smallVolume hs rfl
    exact ⟨t,ht,hchain,by decide⟩
  · exact absurd hlt (by decide)

end MofuOS.Filesystem.Fat32.Fat32Driver
