import MofuOS.Filesystem.Fat32.View

/-! The loops of the driver over FAT chains: on a chain that ends inside the volume each of
them returns what the list of its clusters says. -/
namespace MofuOS.Filesystem.Fat32
open Lib Io
open Prog (liftO)

namespace FatView

/-- The bytes of the clusters, in order. -/
def contents (v : FatView) (l : List Nat) : List UInt8 := l.flatMap v.data

@[simp] theorem next_setData (v : FatView) (c : Nat) (b : List UInt8) : (v.setData c b).next = v.next := rfl

theorem contents_congr {v w : FatView} {l : List Nat} (h : ∀ c ∈ l, w.data c = v.data c) : w.contents l = v.contents l :=
  List.flatMap_congr h

end FatView

namespace Fat32Driver
variable {drv : Fat32Driver} {v : FatView} {c n : Nat} {l : List Nat}

/-- Every cluster of the volume has its full length, every FAT entry 28 bits. -/
structure Solid (drv : Fat32Driver) (v : FatView) : Prop where
  length_data : ∀ {c}, inVolume drv c = true → (v.data c).length = drv.clusterSize
  fat_lt : ∀ c, v.fat c < 2^28

/-- The chain from c, all of it inside the volume. -/
structure Chained (drv : Fat32Driver) (v : FatView) (c : Nat) (l : List Nat) : Prop where
  linked : LinkedChain v.next c l
  inside : ∀ x ∈ l, inVolume drv x = true

theorem solid_viewOf (G : Geometry drv) {s : Disk} (hs : Holds drv s) : Solid drv (viewOf drv s) := by
  refine ⟨length_clusterOf G hs,fun c => ?_⟩
  show fatOf drv s.data c < 2^28
  rw [fatOf]
  split_ifs
  · exact Nat.lt_of_le_of_lt Nat.and_le_right (by decide)
  · decide

theorem Solid.setFat (h : Solid drv v) (hn : n < 2^28) : Solid drv (v.setFat c n) := by
  refine ⟨h.length_data,fun x => ?_⟩
  rw [FatView.setFat_fat,Function.update_apply]
  split_ifs
  · exact hn
  · exact h.fat_lt x

theorem Solid.setData (h : Solid drv v) {b : List UInt8} (hb : b.length = drv.clusterSize) : Solid drv (v.setData c b) := by
  refine ⟨fun {x} hx => ?_,h.fat_lt⟩
  rw [FatView.setData_data,Function.update_apply]
  split_ifs
  · exact hb
  · exact h.length_data hx

theorem length_contents (h : Solid drv v) (hl : ∀ x ∈ l, inVolume drv x = true) :
    (v.contents l).length = l.length * drv.clusterSize := by
  induction l with
  | nil => simp [FatView.contents]
  | cons c l ih =>
    have := ih fun x hx => hl x (List.mem_cons_of_mem _ hx)
    rw [FatView.contents] at this
    rw [FatView.contents,List.flatMap_cons,List.length_append,this,h.length_data (hl c List.mem_cons_self),
      List.length_cons,Nat.succ_mul,Nat.add_comm]

namespace Chained

theorem congr {w : FatView} (h : Chained drv v c l) (hw : ∀ x ∈ l, w.fat x = v.fat x) : Chained drv w c l :=
  ⟨h.linked.congr fun x hx => by rw [FatView.next,FatView.next,hw x hx],h.inside⟩

/-- The first cluster of a chain: either it is the last one as well, or it links to the rest. -/
theorem inv {x : Nat} (h : Chained drv v c (x :: l)) : x = c ∧ inVolume drv c = true ∧
    ((l = [] ∧ v.next c = none) ∨ ∃ b, inVolume drv b = true ∧ v.next c = some b ∧ Chained drv v b l ∧ c ∉ l) := by
  obtain ⟨hl,hin⟩ := h
  have hnd := List.nodup_cons.mp hl.nodup
  cases hl with
  | last hc => exact ⟨rfl,hin c List.mem_cons_self,.inl ⟨rfl,hc⟩⟩
  | @step _ b _ hc hl =>
    have hrest := fun y (hy : y ∈ l) => hin y (List.mem_cons_of_mem _ hy)
    exact ⟨rfl,hin c List.mem_cons_self,.inr ⟨b,hrest b hl.start_mem,hc,⟨hl,hrest⟩,hnd.1⟩⟩

/-- A chain has at most as many clusters as the volume has numbers. -/
theorem length_le (h : Chained drv v c l) : l.length ≤ drv.maxCluster := by
  have hsub : l ⊆ List.range drv.maxCluster := fun x hx =>
    List.mem_range.mpr (inVolume_iff.mp (h.inside x hx)).2
  simpa using (List.subperm_of_subset h.linked.nodup hsub).length_le

/-- No cluster of a chain is free. -/
theorem fat_ne_zero (h : Chained drv v c l) {x : Nat} (hx : x ∈ l) : v.fat x ≠ 0 := by
  intro h0
  have hn : v.next x = some 0 := by
    rw [FatView.next,h0]
    rfl
  rcases h.linked.next_mem hx with hnone | ⟨y,hy,hs⟩
  · rw [hn] at hnone
    cases hnone
  · rw [hn] at hs
    cases hs
    have := (inVolume_iff.mp (h.inside 0 hy)).1
    omega

end Chained

private theorem succ_of_cons {x fuel : Nat} (h : (x :: l).length ≤ fuel) : ∃ m, fuel = m + 1 ∧ l.length ≤ m := by
  rw [List.length_cons] at h
  exact ⟨fuel - 1,by omega,by omega⟩

section Walk
variable (G : Geometry drv)
include G

theorem getNextCluster_none (hs : Solid drv v) (hc : inVolume drv c) (h : v.next c = none) :
    (onDisk drv).Runs (getNextCluster drv c) v (.ok none) v := by
  have hr := inVolume_iff.mp hc
  have hlt := hs.fat_lt c
  have hge : fatEntryReservedBegin ≤ v.fat c := by
    rw [FatView.next] at h
    split_ifs at h with hge
    exact hge
  have hb : fatEntryReservedBegin = 0x0FFFFFF8 := rfl
  have hbad : badCluster = 0x0FFFFFF7 := rfl
  have hend : endOfChain = 0x0FFFFFFF := rfl
  have hres : fatEntryReservedEnd = 0x0FFFFFFE := rfl
  rw [getNextCluster,if_neg (by omega)]
  refine (readFatEntry_runs G hr.2).bind ?_
  by_cases h1 : v.fat c = endOfChain
  · rw [if_pos h1]
    exact .pure none v
  · rw [if_neg h1,if_neg (by omega),if_pos (by omega)]
    exact .pure none v

theorem getNextCluster_some (hc : inVolume drv c) (h : v.next c = some n) (hn : inVolume drv n) :
    (onDisk drv).Runs (getNextCluster drv c) v (.ok (some n)) v := by
  have hr := inVolume_iff.mp hc
  have hrn := inVolume_iff.mp hn
  have hmax := G.maxCluster
  have hfat : v.fat c = n := by
    rw [FatView.next] at h
    split_ifs at h
    exact Option.some.inj h
  have hb : fatEntryReservedBegin = 0x0FFFFFF8 := rfl
  have hbad : badCluster = 0x0FFFFFF7 := rfl
  have hend : endOfChain = 0x0FFFFFFF := rfl
  rw [getNextCluster,if_neg (by omega)]
  refine (readFatEntry_runs G hr.2).bind ?_
  rw [if_neg (by omega),if_neg (by omega),if_neg (by omega),hfat]
  exact .pure (some n) v

theorem clusterChainLengthFrom_runs (hs : Solid drv v) (h : Chained drv v c l) {fuel : Nat} (hf : l.length ≤ fuel) :
    (onDisk drv).Runs (clusterChainLengthFrom drv fuel c) v (.ok l.length) v := by
  induction l generalizing c fuel with
  | nil => exact absurd rfl h.linked.ne_nil
  | cons x l ih =>
    obtain ⟨fuel,rfl,hm⟩ := succ_of_cons hf
    obtain ⟨rfl,hv,⟨rfl,hc⟩ | ⟨b,hb,hc,h,-⟩⟩ := h.inv
    · rw [clusterChainLengthFrom,if_pos hv]
      exact (getNextCluster_none G hs hv hc).bind (.pure 1 v)
    · rw [clusterChainLengthFrom,if_pos hv]
      exact (getNextCluster_some G hv hc hb).bind ((ih h hm).bind (.pure _ v))

theorem getClusterChainLength_runs (hs : Solid drv v) (h : Chained drv v c l) :
    (onDisk drv).Runs (getClusterChainLength drv c) v (.ok l.length) v :=
  clusterChainLengthFrom_runs G hs h (Nat.le_succ_of_le h.length_le)

theorem readClusterChainFrom_runs (hs : Solid drv v) (h : Chained drv v c l) {fuel : Nat} (hf : l.length ≤ fuel) :
    (onDisk drv).Runs (readClusterChainFrom drv fuel c (l.length * drv.clusterSize)) v (.ok (v.contents l)) v := by
  have hpos := G.clusterSize_pos
  induction l generalizing c fuel with
  | nil => exact absurd rfl h.linked.ne_nil
  | cons x l ih =>
    obtain ⟨fuel,rfl,hm⟩ := succ_of_cons hf
    obtain ⟨rfl,hv,hcase⟩ := h.inv
    have hrem : (x :: l).length * drv.clusterSize = l.length * drv.clusterSize + drv.clusterSize := by
      rw [List.length_cons,Nat.succ_mul]
    rw [readClusterChainFrom,hrem,if_pos ⟨by omega,(inVolume_iff.mp hv).2⟩]
    simp only [Nat.min_eq_left (Nat.le_add_left _ _),Nat.add_sub_cancel]
    refine (readCluster_runs G hv).bind ?_
    rw [List.take_of_length_le (hs.length_data hv).le]
    obtain ⟨rfl,hc⟩ | ⟨b,hb,hc,h,-⟩ := hcase
    · rw [show v.contents [x] = v.data x by simp [FatView.contents]]
      exact (getNextCluster_none G hs hv hc).bind (.pure _ v)
    · exact (getNextCluster_some G hv hc hb).bind ((ih h hm).bind (.pure _ v))

theorem readClusterChain_runs (hs : Solid drv v) (h : Chained drv v c l) :
    (onDisk drv).Runs (readClusterChain drv c (l.length * drv.clusterSize)) v (.ok (v.contents l)) v :=
  readClusterChainFrom_runs G hs h (Nat.le_succ_of_le (Nat.le_mul_of_pos_right _ G.clusterSize_pos))

/-- Writing a chain back cluster by cluster replaces its bytes and nothing else. -/
theorem writeClusterChainFrom_runs (hs : Solid drv v) (h : Chained drv v c l) {buffer : List UInt8}
    (hb : buffer.length = l.length * drv.clusterSize) {fuel : Nat} (hf : l.length ≤ fuel) :
    ∃ w, (onDisk drv).Runs (writeClusterChainFrom drv fuel c buffer) v (.ok ()) w ∧ Solid drv w ∧
      w.fat = v.fat ∧ (∀ x, x ∉ l → w.data x = v.data x) ∧ w.contents l = buffer := by
  have hpos := G.clusterSize_pos
  induction l generalizing c fuel v buffer with
  | nil => exact absurd rfl h.linked.ne_nil
  | cons x l ih =>
    obtain ⟨fuel,rfl,hm⟩ := succ_of_cons hf
    obtain ⟨rfl,hv,hcase⟩ := h.inv
    rw [List.length_cons,Nat.succ_mul] at hb
    have htake : (buffer.take drv.clusterSize).length = drv.clusterSize := by
      rw [List.length_take]
      omega
    have hs' : Solid drv (v.setData x (buffer.take drv.clusterSize)) := hs.setData htake
    rw [writeClusterChainFrom,if_pos ⟨by omega,(inVolume_iff.mp hv).2⟩]
    obtain ⟨rfl,hc⟩ | ⟨b,hbv,hc,h,hxl⟩ := hcase
    · refine ⟨v.setData x (buffer.take drv.clusterSize),?_,hs',rfl,fun y hy => ?_,?_⟩
      · exact (writeCluster_runs G hv htake).bind ((getNextCluster_none G hs' hv hc).bind (.pure () _))
      · exact Function.update_of_ne (fun e => hy (List.mem_singleton.mpr e)) ..
      · rw [List.length_nil,Nat.zero_mul,Nat.zero_add] at hb
        simp [FatView.contents,List.take_of_length_le hb.le]
    · obtain ⟨w,hw,hsw,hfat,hdata,hcont⟩ := ih hs' (h.congr fun _ _ => rfl)
        (show (buffer.drop drv.clusterSize).length = _ by rw [List.length_drop]; omega) hm
      have hc' : (v.setData x (buffer.take drv.clusterSize)).next x = some b := hc
      refine ⟨w,(writeCluster_runs G hv htake).bind ((getNextCluster_some G hv hc' hbv).bind hw),hsw,hfat,
        fun y hy => ?_,?_⟩
      · rw [hdata y (List.not_mem_of_not_mem_cons hy)]
        exact Function.update_of_ne (List.ne_of_not_mem_cons hy) ..
      · have hx : w.data x = buffer.take drv.clusterSize := by
          rw [hdata x hxl]
          exact Function.update_self ..
        rw [FatView.contents] at hcont
        rw [FatView.contents,List.flatMap_cons,hx,hcont,List.take_append_drop]

theorem lastClusterFrom_runs (hs : Solid drv v) (h : Chained drv v c l) {fuel : Nat} (hf : l.length ≤ fuel) :
    ∃ x, l.getLast? = some x ∧ (onDisk drv).Runs (lastClusterFrom drv fuel c) v (.ok x) v := by
  induction l generalizing c fuel with
  | nil => exact absurd rfl h.linked.ne_nil
  | cons x l ih =>
    obtain ⟨fuel,rfl,hm⟩ := succ_of_cons hf
    obtain ⟨rfl,hv,⟨rfl,hc⟩ | ⟨b,hb,hc,h,-⟩⟩ := h.inv
    · refine ⟨x,rfl,?_⟩
      rw [lastClusterFrom,if_pos hv]
      exact (getNextCluster_none G hs hv hc).bind (.pure x v)
    · obtain ⟨y,hy,hrun⟩ := ih h hm
      refine ⟨y,?_,?_⟩
      · obtain ⟨r,rfl⟩ := h.linked.eq_cons
        rwa [List.getLast?_cons_cons]
      · rw [lastClusterFrom,if_pos hv]
        exact (getNextCluster_some G hv hc hb).bind hrun

/-- Freeing a chain clears exactly its entries. -/
theorem freeClusterChainFrom_runs (hs : Solid drv v) (h : Chained drv v c l) {fuel : Nat} (hf : l.length ≤ fuel) :
    ∃ w, (onDisk drv).Runs (freeClusterChainFrom drv fuel c) v (.ok ()) w ∧ Solid drv w ∧
      w.data = v.data ∧ (∀ x ∈ l, w.fat x = 0) ∧ ∀ x, x ∉ l → w.fat x = v.fat x := by
  induction l generalizing c fuel v with
  | nil => exact absurd rfl h.linked.ne_nil
  | cons x l ih =>
    obtain ⟨fuel,rfl,hm⟩ := succ_of_cons hf
    obtain ⟨rfl,hv,hcase⟩ := h.inv
    have hs' : Solid drv (v.setFat x emptyFatEntry) := hs.setFat (by decide)
    have hwrite := writeFatEntry_runs G (v := v) (inVolume_iff.mp hv).2 (show emptyFatEntry < 2^28 by decide)
    rw [freeClusterChainFrom,if_pos hv]
    obtain ⟨rfl,hc⟩ | ⟨b,hb,hc,h,hxl⟩ := hcase
    · refine ⟨v.setFat x emptyFatEntry,(getNextCluster_none G hs hv hc).bind hwrite,hs',rfl,fun y hy => ?_,fun y hy => ?_⟩
      · rw [List.mem_singleton.mp hy]
        exact Function.update_self ..
      · exact Function.update_of_ne (fun e => hy (List.mem_singleton.mpr e)) ..
    · have hrest : Chained drv (v.setFat x emptyFatEntry) b l :=
        h.congr fun y hy => Function.update_of_ne (fun e : y = x => hxl (e ▸ hy)) ..
      obtain ⟨w,hw,hsw,hdata,hzero,hfat⟩ := ih hs' hrest hm
      refine ⟨w,(getNextCluster_some G hv hc hb).bind ?_,hsw,hdata,fun y hy => ?_,fun y hy => ?_⟩
      · simp only [hb,Bool.not_true,Bool.false_eq_true,if_false]
        exact hwrite.bind hw
      · rcases List.mem_cons.mp hy with rfl | hy
        · rw [hfat y hxl]
          exact Function.update_self ..
        · exact hzero y hy
      · rw [hfat y (List.not_mem_of_not_mem_cons hy)]
        exact Function.update_of_ne (List.ne_of_not_mem_cons hy) ..

theorem freeClusterChain_runs (hs : Solid drv v) (h : Chained drv v c l) :
    ∃ w, (onDisk drv).Runs (freeClusterChain drv c) v (.ok ()) w ∧ Solid drv w ∧
      w.data = v.data ∧ (∀ x ∈ l, w.fat x = 0) ∧ ∀ x, x ∉ l → w.fat x = v.fat x :=
  freeClusterChainFrom_runs G hs h (Nat.le_succ_of_le h.length_le)

/-- The rest of a chain from its n-th cluster on. -/
theorem skipClusters_runs (h : Chained drv v c l) (hn : n < l.length) :
    ∃ x, (onDisk drv).Runs (skipClusters drv n c) v (.ok (some x)) v ∧ Chained drv v x (l.drop n) := by
  induction n generalizing c l with
  | zero => exact ⟨c,.pure _ v,h⟩
  | succ n ih =>
    obtain ⟨r,rfl⟩ := h.linked.eq_cons
    obtain ⟨-,hv,⟨rfl,-⟩ | ⟨b,hb,hc,h,-⟩⟩ := h.inv
    · exact absurd hn (by simp)
    · obtain ⟨x,hx,hr⟩ := ih h (by simpa using hn)
      exact ⟨x,(getNextCluster_some G hv hc hb).bind hx,hr⟩

end Walk

/-- The free clusters, in the order in which they are allocated. -/
def freeClusters (drv : Fat32Driver) (v : FatView) : List Nat :=
  (List.range' rootCluster (drv.maxCluster - rootCluster)).filter fun x => v.fat x == 0

section Free
variable {w : FatView} {x : Nat} {rest : List Nat}

theorem mem_freeClusters : x ∈ freeClusters drv v ↔ inVolume drv x = true ∧ v.fat x = 0 := by
  rw [freeClusters,List.mem_filter,List.mem_range'_1,beq_iff_eq,inVolume_iff,rootCluster]
  refine and_congr_left fun _ => ?_
  omega

theorem freeClusters_congr (h : ∀ x, inVolume drv x = true → (w.fat x = 0 ↔ v.fat x = 0)) :
    freeClusters drv w = freeClusters drv v := by
  refine List.filter_congr fun x hx => ?_
  rw [Bool.eq_iff_iff,beq_iff_eq,beq_iff_eq]
  refine h x (inVolume_iff.mpr ?_)
  rw [List.mem_range'_1,rootCluster] at hx
  omega

/-- A cluster at the front that is used up, and nothing else, leaves the rest free. -/
theorem freeClusters_tail (h : freeClusters drv v = x :: rest) (hx : w.fat x ≠ 0)
    (hw : ∀ y, y ≠ x → inVolume drv y = true → (w.fat y = 0 ↔ v.fat y = 0)) : freeClusters drv w = rest := by
  have hfilter : freeClusters drv w = (freeClusters drv v).filter fun y => y != x := by
    rw [freeClusters,freeClusters,List.filter_filter]
    refine List.filter_congr fun y hy => ?_
    have hin : inVolume drv y = true := by
      rw [List.mem_range'_1,rootCluster] at hy
      exact inVolume_iff.mpr (by omega)
    rw [Bool.eq_iff_iff,Bool.and_eq_true,beq_iff_eq,beq_iff_eq,bne_iff_ne]
    by_cases hyx : y = x
    · subst hyx
      exact iff_of_false hx fun hand => hand.1 rfl
    · rw [hw y hyx hin]
      exact ⟨fun h0 => ⟨hyx,h0⟩,And.right⟩
  have hnodup : (x :: rest).Nodup := h ▸ (List.nodup_range' ..).filter _
  rw [hfilter,h,List.filter_cons_of_neg (by simp)]
  refine List.filter_eq_self.mpr fun y hy => bne_iff_ne.mpr fun hyx => ?_
  exact (List.nodup_cons.mp hnodup).1 (hyx ▸ hy)

end Free

section Allocate
variable (G : Geometry drv)
include G

private theorem findFreeClusterIn_runs (hl : ∀ x ∈ l, inVolume drv x = true) :
    (∃ x rest, l.filter (fun x => v.fat x == 0) = x :: rest ∧ (onDisk drv).Runs (findFreeClusterIn drv l) v (.ok x) v) ∨
      (l.filter (fun x => v.fat x == 0) = [] ∧ (onDisk drv).Runs (findFreeClusterIn drv l) v (.error .noSpace) v) := by
  induction l with
  | nil => exact .inr ⟨rfl,.fail _ v⟩
  | cons x l ih =>
    have hread := readFatEntry_runs G (v := v) (inVolume_iff.mp (hl x List.mem_cons_self)).2
    rw [findFreeClusterIn]
    by_cases hx : v.fat x = 0
    · refine .inl ⟨x,_,List.filter_cons_of_pos (beq_iff_eq.mpr hx),hread.bind ?_⟩
      rw [if_pos hx]
      exact .pure x v
    · rw [List.filter_cons_of_neg (by simpa using hx)]
      refine (ih fun y hy => hl y (List.mem_cons_of_mem _ hy)).imp ?_ ?_
      · rintro ⟨y,rest,hy,hrun⟩
        refine ⟨y,rest,hy,hread.bind ?_⟩
        rwa [if_neg hx]
      · rintro ⟨hnil,hrun⟩
        refine ⟨hnil,hread.bind ?_⟩
        rwa [if_neg hx]

theorem findFreeCluster_runs :
    (∃ x rest, freeClusters drv v = x :: rest ∧ (onDisk drv).Runs (findFreeCluster drv) v (.ok x) v) ∨
      (freeClusters drv v = [] ∧ (onDisk drv).Runs (findFreeCluster drv) v (.error .noSpace) v) := by
  refine findFreeClusterIn_runs G fun x hx => inVolume_iff.mpr ?_
  rw [List.mem_range'_1,rootCluster] at hx
  omega

/-- One cluster is allocated by ending a chain of its own at it. -/
theorem allocateClusters_runs :
    (∃ x rest, freeClusters drv v = x :: rest ∧
      (onDisk drv).Runs (allocateClusters drv 1) v (.ok x) (v.setFat x endOfChain)) ∨
      (freeClusters drv v = [] ∧ (onDisk drv).Runs (allocateClusters drv 1) v (.error .noSpace) v) := by
  rw [allocateClusters,if_neg (by decide)]
  refine (findFreeCluster_runs G (v := v)).imp ?_ ?_
  · rintro ⟨x,rest,hfree,hrun⟩
    have hx := (mem_freeClusters.mp (hfree ▸ List.mem_cons_self)).1
    refine ⟨x,rest,hfree,hrun.bind ((Abstraction.Runs.pure x v).bind ?_)⟩
    exact (writeFatEntry_runs G (inVolume_iff.mp hx).2 (by decide)).bind (.pure x _)
  · rintro ⟨hnil,hrun⟩
    exact ⟨hnil,hrun.bind_error⟩

theorem clearClusters_runs (hs : Solid drv v) (hc : inVolume drv c) (h : v.next c = none) :
    (onDisk drv).Runs (clearClusters drv c 1) v (.ok ()) (v.setData c (List.replicate drv.clusterSize 0)) := by
  have hs' : Solid drv (v.setData c (List.replicate drv.clusterSize 0)) := hs.setData (List.length_replicate ..)
  rw [clearClusters]
  exact (clearCluster_runs G hc).bind ((getNextCluster_none G hs' hc h).bind (.pure () _))

end Allocate

/-- The volume after c, which was free, has become a zeroed chain of its own. -/
def fresh (drv : Fat32Driver) (v : FatView) (c : Nat) : FatView :=
  (v.setFat c endOfChain).setData c (List.replicate drv.clusterSize 0)

theorem Solid.fresh (h : Solid drv v) : Solid drv (fresh drv v c) :=
  (h.setFat (by decide)).setData (List.length_replicate ..)

theorem next_fresh : (fresh drv v c).next = Function.update v.next c none := FatView.next_setFat_end v c

theorem freeClusters_fresh {x : Nat} {rest : List Nat} (h : freeClusters drv v = x :: rest) :
    freeClusters drv (fresh drv v x) = rest := by
  refine freeClusters_tail h ?_ fun y hy _ => ?_
  · rw [fresh,FatView.setData_fat,FatView.setFat_fat,Function.update_self]
    decide
  · rw [fresh,FatView.setData_fat,FatView.setFat_fat,Function.update_of_ne hy]

/-- The cluster that is linked to was used before. -/
theorem freeClusters_link {x : Nat} {rest : List Nat} (h : freeClusters drv v = x :: rest) (hc : v.fat c ≠ 0) :
    freeClusters drv ((fresh drv v x).setFat c x) = rest := by
  have hx := mem_freeClusters.mp (h ▸ List.mem_cons_self)
  have hx0 : x ≠ 0 := by
    have := (inVolume_iff.mp hx.1).1
    omega
  have hxc : x ≠ c := by
    rintro rfl
    exact hc hx.2
  rw [← freeClusters_fresh h]
  refine freeClusters_congr fun y _ => ?_
  rw [FatView.setFat_fat]
  by_cases hy : y = c
  · subst hy
    rw [Function.update_self]
    refine iff_of_false hx0 ?_
    rw [fresh,FatView.setData_fat,FatView.setFat_fat,Function.update_of_ne hxc.symm]
    exact hc
  · rw [Function.update_of_ne hy]

section Append
variable (G : Geometry drv)
include G

theorem newCleared_runs (hs : Solid drv v) :
    (∃ x rest, freeClusters drv v = x :: rest ∧ (onDisk drv).Runs (newCleared drv) v (.ok x) (fresh drv v x)) ∨
      (freeClusters drv v = [] ∧ (onDisk drv).Runs (newCleared drv) v (.error .noSpace) v) := by
  refine (allocateClusters_runs G (v := v)).imp ?_ ?_
  · rintro ⟨x,rest,hfree,hrun⟩
    have hx := (mem_freeClusters.mp (hfree ▸ List.mem_cons_self)).1
    have hnone : (v.setFat x endOfChain).next x = none := by
      rw [FatView.next_setFat_end,Function.update_self]
    exact ⟨x,rest,hfree,hrun.bind ((clearClusters_runs G (hs.setFat (by decide)) hx hnone).bind (.pure x _))⟩
  · rintro ⟨hnil,hrun⟩
    exact ⟨hnil,hrun.bind_error⟩

theorem appendCluster_runs (hs : Solid drv v) (hc : inVolume drv c) :
    (∃ x rest, freeClusters drv v = x :: rest ∧
      (onDisk drv).Runs (appendCluster drv c) v (.ok x) ((fresh drv v x).setFat c x)) ∨
      (freeClusters drv v = [] ∧ (onDisk drv).Runs (appendCluster drv c) v (.error .noSpace) v) := by
  refine (allocateClusters_runs G (v := v)).imp ?_ ?_
  · rintro ⟨x,rest,hfree,hrun⟩
    have hx := (mem_freeClusters.mp (hfree ▸ List.mem_cons_self)).1
    have hnone : (v.setFat x endOfChain).next x = none := by
      rw [FatView.next_setFat_end,Function.update_self]
    have hlt : x < 2^28 := by
      have := (inVolume_iff.mp hx).2
      have := G.maxCluster
      omega
    refine ⟨x,rest,hfree,hrun.bind ((clearClusters_runs G (hs.setFat (by decide)) hx hnone).bind ?_)⟩
    exact (writeFatEntry_runs G (inVolume_iff.mp hc).2 hlt).bind (.pure x _)
  · rintro ⟨hnil,hrun⟩
    exact ⟨hnil,hrun.bind_error⟩

end Append
end Fat32Driver
end MofuOS.Filesystem.Fat32
