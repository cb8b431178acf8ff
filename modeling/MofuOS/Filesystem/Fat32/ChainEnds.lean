import MofuOS.Filesystem.Fat32.Fresh

/-! When the walks along FAT links end, on any disk at all: the links are what the disk says,
and the loops of the driver follow them without counting. -/
namespace MofuOS.Filesystem.Fat32.Fat32Driver
open Lib Io
open Prog (Returns Total)
variable {drv : Fat32Driver} {s : Disk} {c n fuel : Nat} {l : List Nat} {α : Type}

/-- Where a walk goes on from a cluster: nowhere outside the volume, nor behind an end mark,
a bad mark or an entry that the disk does not hold. -/
def walkLink (drv : Fat32Driver) (s : Disk) (c : Nat) : Option Nat :=
  if inVolume drv c then (fatEntryOn drv s c).filter fun entry => entry < badCluster else none

/-- The links from c lead to a last cluster. -/
def ChainEnds (drv : Fat32Driver) (s : Disk) (c : Nat) : Prop := ∃ l, LinkedChain (walkLink drv s) c l

/-- They do, and no link of the chain leads out of the volume. -/
def ChainEndsInside (drv : Fat32Driver) (s : Disk) (c : Nat) : Prop :=
  ∃ l, LinkedChain (walkLink drv s) c l ∧ ∀ x ∈ l.tail, inVolume drv x = true

/-- All clusters of a chain but its last one lie inside the volume. -/
theorem length_le_of_linked (h : LinkedChain (walkLink drv s) c l) : l.length ≤ drv.maxCluster + 1 := by
  have hsub : l.dropLast ⊆ List.range drv.maxCluster := by
    intro x hx
    obtain ⟨p,r,hpr⟩ := List.append_of_mem hx
    have hl : l = p ++ x :: (r ++ [l.getLast h.ne_nil]) := by
      rw [← List.cons_append,← List.append_assoc,← hpr,List.dropLast_append_getLast]
    have hlink : walkLink drv s x = (r ++ [l.getLast h.ne_nil]).head? := LinkedChain.link_eq (hl ▸ h)
    have hin : inVolume drv x = true := by
      by_contra hout
      rw [walkLink,if_neg hout] at hlink
      cases r <;> simp at hlink
    exact List.mem_range.mpr (inVolume_iff.mp hin).2
  have hle := (List.subperm_of_subset (h.nodup.sublist (List.dropLast_sublist l)) hsub).length_le
  rw [List.length_dropLast,List.length_range] at hle
  omega

section Walk
variable (hb : drv.bootSector.bytesPerSector = 512)

include hb in
/-- A step of a walk that is inside the volume. -/
theorem getNextCluster_cases (s : Disk) (hc : inVolume drv c = true) :
    (∃ n, walkLink drv s c = some n ∧ getNextCluster drv c s = .ok (.ok (some n),s)) ∨
      (walkLink drv s c = none ∧ (getNextCluster drv c s = .ok (.ok none,s) ∨
        getNextCluster drv c s = .ok (.error .diskOpError,s))) := by
  have h2 := (inVolume_iff.mp hc).1
  rw [getNextCluster,if_neg (by omega),walkLink,if_pos hc]
  have hread := readFatEntry_eq hb c s
  cases he : fatEntryOn drv s c with
  | none =>
    rw [he] at hread
    exact .inr ⟨rfl,.inr (Prog.run_bind_error hread)⟩
  | some entry =>
    rw [he] at hread
    rw [Prog.run_bind_ok hread]
    have hmask : entry < 2^28 := by
      rw [fatEntryOn] at he
      split_ifs at he
      cases he
      exact Nat.lt_of_le_of_lt Nat.and_le_right (by decide)
    have hbad : badCluster = 0x0FFFFFF7 := rfl
    have hres : fatEntryReservedBegin = 0x0FFFFFF8 ∧ fatEntryReservedEnd = 0x0FFFFFFE ∧ endOfChain = 0x0FFFFFFF :=
      ⟨rfl,rfl,rfl⟩
    by_cases hlt : entry < badCluster
    · refine .inl ⟨entry,by simp [hlt],?_⟩
      rw [if_neg (by omega),if_neg (by omega),if_neg (by omega)]
      rfl
    · refine .inr ⟨by simpa using Nat.not_lt.mp hlt,?_⟩
      split_ifs with hend hmark hreserved
      · exact .inl rfl
      · exact .inr rfl
      · exact .inl rfl
      · omega

/-- A loop that follows the links from its cluster while they lead through the volume and
changes nothing on its way. -/
structure Walks (drv : Fat32Driver) (walk : Nat → Nat → FsProg Disk α) : Prop where
  out_of_fuel : ∀ c s, ¬ (walk 0 c).Returns s
  outside : ∀ fuel c s, inVolume drv c = false → (walk (fuel + 1) c).Returns s
  next : ∀ fuel c s n, inVolume drv c = true → getNextCluster drv c s = .ok (.ok (some n),s) →
    ((walk (fuel + 1) c).Returns s ↔ (walk fuel n).Returns s)
  stop : ∀ fuel c s, inVolume drv c = true → getNextCluster drv c s = .ok (.ok none,s) → (walk (fuel + 1) c).Returns s
  error : ∀ fuel c s e, inVolume drv c = true → getNextCluster drv c s = .ok (.error e,s) →
    (walk (fuel + 1) c).Returns s

namespace Walks
variable {walk : Nat → Nat → FsProg Disk α} (W : Walks drv walk)
include W hb

theorem returns (h : LinkedChain (walkLink drv s) c l) (hf : l.length ≤ fuel) : (walk fuel c).Returns s := by
  induction h generalizing fuel with
  | @last c hnone =>
    obtain ⟨fuel,rfl⟩ : ∃ k, fuel = k + 1 := ⟨fuel - 1,by rw [List.length_singleton] at hf; omega⟩
    by_cases hc : inVolume drv c = true
    · obtain ⟨n,hn,-⟩ | ⟨-,hs | he⟩ := getNextCluster_cases hb s hc
      · rw [hnone] at hn
        cases hn
      · exact W.stop _ _ _ hc hs
      · exact W.error _ _ _ _ hc he
    · exact W.outside _ _ _ (by simpa using hc)
  | @step c b l hlink hl ih =>
    obtain ⟨fuel,rfl⟩ : ∃ k, fuel = k + 1 := ⟨fuel - 1,by rw [List.length_cons] at hf; omega⟩
    have hc : inVolume drv c = true := by
      by_contra hout
      rw [walkLink,if_neg hout] at hlink
      cases hlink
    obtain ⟨n,hn,hnext⟩ | ⟨hnone,-⟩ := getNextCluster_cases hb s hc
    · obtain rfl : b = n := Option.some.inj (hlink.symm.trans hn)
      exact (W.next _ _ _ _ hc hnext).mpr (ih (by rw [List.length_cons] at hf; omega))
    · rw [hlink] at hnone
      cases hnone

/-- A walk returns only at the end of a chain, however many rounds it is given. -/
theorem ends (h : (walk fuel c).Returns s) : ChainEnds drv s c := by
  induction fuel generalizing c with
  | zero => exact absurd h (W.out_of_fuel c s)
  | succ fuel ih =>
    by_cases hc : inVolume drv c = true
    · obtain ⟨n,hn,hnext⟩ | ⟨hnone,-⟩ := getNextCluster_cases hb s hc
      · obtain ⟨l,hl⟩ := ih ((W.next _ _ _ _ hc hnext).mp h)
        exact ⟨c :: l,.step hn hl⟩
      · exact ⟨[c],.last hnone⟩
    · exact ⟨[c],.last (if_neg hc)⟩

theorem returns_iff (c : Nat) (s : Disk) : (walk (drv.maxCluster + 1) c).Returns s ↔ ChainEnds drv s c := by
  refine ⟨W.ends hb,?_⟩
  rintro ⟨l,hl⟩
  exact W.returns hb hl (length_le_of_linked hl)

end Walks
end Walk

theorem clusterChainLengthFrom_walks (drv : Fat32Driver) : Walks drv (clusterChainLengthFrom drv) where
  out_of_fuel c s := Prog.not_returns_fault _ s
  outside fuel c s hc := by
    rw [clusterChainLengthFrom,if_neg (by simp [hc])]
    exact ⟨_,s,rfl⟩
  next fuel c s n hc hn := by
    rw [Returns,clusterChainLengthFrom,if_pos hc,Prog.run_bind_ok hn]
    exact ⟨fun h => Returns.first h,fun h => h.bind fun _ => .pure _⟩
  stop fuel c s hc hn := by
    rw [Returns,clusterChainLengthFrom,if_pos hc,Prog.run_bind_ok hn]
    exact ⟨_,s,rfl⟩
  error fuel c s e hc he := by
    rw [Returns,clusterChainLengthFrom,if_pos hc]
    exact ⟨_,s,Prog.run_bind_error he⟩

theorem lastClusterFrom_walks (drv : Fat32Driver) : Walks drv (lastClusterFrom drv) where
  out_of_fuel c s := Prog.not_returns_fault _ s
  outside fuel c s hc := by
    rw [lastClusterFrom,if_neg (by simp [hc])]
    exact ⟨_,s,rfl⟩
  next fuel c s n hc hn := by
    rw [Returns,lastClusterFrom,if_pos hc,Prog.run_bind_ok hn]
    rfl
  stop fuel c s hc hn := by
    rw [Returns,lastClusterFrom,if_pos hc,Prog.run_bind_ok hn]
    exact ⟨_,s,rfl⟩
  error fuel c s e hc he := by
    rw [Returns,lastClusterFrom,if_pos hc]
    exact ⟨_,s,Prog.run_bind_error he⟩

section Free
variable (hb : drv.bootSector.bytesPerSector = 512)

/-- The entry of a freed cluster reads as a link to cluster 0. -/
theorem walkLink_freed (hle : 512 * (drv.fatStartSector + c * 4 / 512) + 512 ≤ s.data.length) {b : List UInt8}
    (hlen : b.length = 4) (hmask : leNat b &&& 0x0FFFFFFF = 0) (hc : inVolume drv c = true) :
    walkLink drv ⟨overwrite s.data (fatOffset drv c) b⟩ = Function.update (walkLink drv s) c (some 0) := by
  have hfit : fatOffset drv c + b.length ≤ s.data.length := by
    rw [fatOffset,hlen]
    omega
  have ho : fatOffset drv c ≤ s.data.length := Nat.le_of_add_right_le hfit
  have hself : slice (overwrite s.data (fatOffset drv c) b) (fatOffset drv c) 4 = b := by
    rw [← hlen]
    exact slice_overwrite_self ho
  funext x
  simp only [walkLink,fatEntryOn,length_overwrite hfit]
  by_cases hx : x = c
  · subst hx
    rw [Function.update_self,if_pos hc,if_pos hle,hself,hmask]
    rfl
  · rw [Function.update_of_ne hx,slice_overwrite_of_disjoint ho (by rw [hlen]; simp only [fatOffset]; omega)]
    rfl

include hb in
/-- A round of the loop that frees a chain: the entry could be read, so it can be cleared. -/
theorem clear_read (hc : inVolume drv c = true) {next : Option Nat} (h : getNextCluster drv c s = .ok (.ok next,s)) :
    ∃ t, writeFatEntry drv c emptyFatEntry s = .ok (.ok (),t) ∧ walkLink drv t = Function.update (walkLink drv s) c (some 0) := by
  have h2 := (inVolume_iff.mp hc).1
  obtain ⟨hnone,-⟩ | ⟨hle,b,hlen,⟨hmask,-⟩,hw⟩ := writeFatEntry_cases hb c emptyFatEntry s
  · have hread := readFatEntry_eq hb c s
    rw [hnone] at hread
    rw [getNextCluster,if_neg (by omega),Prog.run_bind_error hread] at h
    cases h
  · exact ⟨_,hw,walkLink_freed hle hlen hmask hc⟩

include hb in
theorem freeClusterChainFrom_returns (h : LinkedChain (walkLink drv s) c l) (hin : ∀ x ∈ l.tail, inVolume drv x = true)
    (hf : l.length ≤ fuel) : (freeClusterChainFrom drv fuel c).Returns s := by
  induction l generalizing c s fuel with
  | nil => exact absurd rfl h.ne_nil
  | cons x l ih =>
    obtain ⟨fuel,rfl⟩ : ∃ k, fuel = k + 1 := ⟨fuel - 1,by rw [List.length_cons] at hf; omega⟩
    rw [List.length_cons] at hf
    rw [Returns,freeClusterChainFrom]
    by_cases hc : inVolume drv c = true
    · rw [if_pos hc]
      obtain ⟨n,hn,hnext⟩ | ⟨hnone,hs | he⟩ := getNextCluster_cases hb s hc
      · have hnd := List.nodup_cons.mp h.nodup
        cases h with
        | last hnone =>
          rw [hnone] at hn
          cases hn
        | @step _ b _ hlink hl =>
          obtain rfl : b = n := Option.some.inj (hlink.symm.trans hn)
          have hbv : inVolume drv b = true := hin b hl.start_mem
          obtain ⟨t,ht,hfreed⟩ := clear_read hb hc hnext
          have hrest : LinkedChain (walkLink drv t) b l := hl.congr fun y hy => by
            rw [hfreed,Function.update_of_ne (fun e : y = x => hnd.1 (e ▸ hy))]
          rw [Prog.run_bind_ok hnext]
          simp only [hbv,Bool.not_true,Bool.false_eq_true,if_false]
          rw [Prog.run_bind_ok ht]
          exact ih hrest (fun y hy => hin y (List.mem_of_mem_tail hy)) (by omega)
      · obtain ⟨t,ht,-⟩ := clear_read hb hc hs
        exact ⟨_,t,(Prog.run_bind_ok hs).trans ht⟩
      · exact ⟨_,s,Prog.run_bind_error he⟩
    · rw [if_neg hc]
      exact ⟨_,s,rfl⟩

include hb in
/-- A loop that returned never met a cluster it had freed: the link to 0 it would have
found there fails the check. -/
theorem freeClusterChainFrom_ends (h : (freeClusterChainFrom drv fuel c).Returns s) : ChainEndsInside drv s c := by
  induction fuel generalizing c s with
  | zero => exact absurd h (Prog.not_returns_fault _ s)
  | succ fuel ih =>
    rw [freeClusterChainFrom] at h
    by_cases hc : inVolume drv c = true
    · rw [if_pos hc] at h
      obtain ⟨n,hn,hnext⟩ | ⟨hnone,-⟩ := getNextCluster_cases hb s hc
      · rw [Returns,Prog.run_bind_ok hnext] at h
        cases hv : inVolume drv n with
        | false =>
          simp only [hv,Bool.not_false,if_true] at h
          exact absurd h (Prog.not_returns_fault _ s)
        | true =>
          obtain ⟨t,ht,hfreed⟩ := clear_read hb hc hnext
          simp only [hv,Bool.not_true,Bool.false_eq_true,if_false] at h
          rw [Prog.run_bind_ok ht] at h
          obtain ⟨l,hl,hin⟩ := ih h
          obtain ⟨r,rfl⟩ := hl.eq_cons
          have hall : ∀ x ∈ n :: r, inVolume drv x = true := fun x hx =>
            (List.mem_cons.mp hx).elim (fun e => e ▸ hv) (hin x)
          have hcl : c ∉ n :: r := by
            intro hmem
            obtain hn0 | ⟨y,hy,hs⟩ := hl.next_mem hmem <;> rw [hfreed,Function.update_self] at *
            · cases hn0
            · cases hs
              have := (inVolume_iff.mp (hall 0 hy)).1
              omega
          have hback : LinkedChain (walkLink drv s) n (n :: r) := hl.congr fun y hy => by
            rw [hfreed,Function.update_of_ne (fun e : y = c => hcl (e ▸ hy))]
          exact ⟨c :: n :: r,.step hn hback,hall⟩
      · exact ⟨[c],.last hnone,fun y hy => by cases hy⟩
    · exact ⟨[c],.last (if_neg hc),fun y hy => by cases hy⟩

end Free

section Total
variable (hb : drv.bootSector.bytesPerSector = 512)

theorem writeSectors_total (start count : Nat) (data : List UInt8) : Total (Disk.writeSectors start count data) := by
  intro s
  rw [Returns,Disk.writeSectors,Prog.run_get_bind]
  split_ifs <;> exact ⟨_,_,rfl⟩

include hb in
theorem readFatEntry_total (c : Nat) : Total (readFatEntry drv c) := fun s => ⟨_,s,readFatEntry_eq hb c s⟩

include hb in
theorem writeFatEntry_total (c n : Nat) : Total (writeFatEntry drv c n) := by
  intro s
  obtain ⟨-,h⟩ | ⟨-,b,-,-,h⟩ := writeFatEntry_cases hb c n s
  · exact ⟨_,_,h⟩
  · exact ⟨_,_,h⟩

include hb in
theorem getNextCluster_total (c : Nat) : Total (getNextCluster drv c) := by
  rw [getNextCluster]
  split_ifs
  · exact .pure none
  · refine (readFatEntry_total hb c).bind fun entry => ?_
    split_ifs
    · exact .pure none
    · exact .fail _
    · exact .pure none
    · exact .pure _

include hb in
private theorem findFreeClusterIn_total (l : List Nat) : Total (findFreeClusterIn drv l) := by
  induction l with
  | nil => exact .fail _
  | cons c l ih =>
    refine (readFatEntry_total hb c).bind fun entry => ?_
    split_ifs
    · exact .pure c
    · exact ih

include hb in
private theorem allocateClusters_total : Total (allocateClusters drv 1) := by
  rw [allocateClusters,if_neg (by decide)]
  exact (findFreeClusterIn_total hb _).bind fun c => (Total.pure c).bind fun last =>
    (writeFatEntry_total hb last endOfChain).bind fun _ => .pure c

private theorem clearSectors_total (sector count : Nat) : Total (clearSectors sector count) := by
  induction count generalizing sector with
  | zero => exact .pure ()
  | succ count ih => exact (writeSectors_total _ _ _).bind fun _ => ih _

include hb in
private theorem clearClusters_total (c count : Nat) : Total (clearClusters drv c count) := by
  induction count generalizing c with
  | zero => exact .pure ()
  | succ count ih =>
    refine (clearSectors_total _ _).bind fun _ => (getNextCluster_total hb c).bind fun next => ?_
    cases next with
    | none => exact .pure ()
    | some n => exact ih n

include hb in
/-- Behind the walk to the last cluster nothing in the growth of a directory can go wrong. -/
theorem expandDirectory_returns_iff (c n : Nat) (s : Disk) : (expandDirectory drv c n).Returns s ↔ ChainEnds drv s c := by
  rw [← (lastClusterFrom_walks drv).returns_iff hb]
  refine ⟨Returns.first,fun h => h.bind fun last => ?_⟩
  exact (allocateClusters_total hb).bind fun new => (clearClusters_total hb new 1).bind fun _ =>
    (writeFatEntry_total hb last new).bind fun _ => (writeFatEntry_total hb new endOfChain).bind fun _ => .pure n

include hb in
theorem freeClusterChain_returns_iff (c : Nat) (s : Disk) : (freeClusterChain drv c).Returns s ↔ ChainEndsInside drv s c := by
  refine ⟨freeClusterChainFrom_ends hb,?_⟩
  rintro ⟨l,hl,hin⟩
  exact freeClusterChainFrom_returns hb hl hin (length_le_of_linked hl)

end Total

/-- Counting and extending a chain return exactly when its links lead to an end, and freeing
it exactly when they also stay inside the volume on the way. -/
theorem chain_walks_return_iff (hb : drv.bootSector.bytesPerSector = 512) (c n : Nat) (s : Disk) :
    ((getClusterChainLength drv c).Returns s ↔ ChainEnds drv s c) ∧
      ((expandDirectory drv c n).Returns s ↔ ChainEnds drv s c) ∧
      ((freeClusterChain drv c).Returns s ↔ ChainEndsInside drv s c) :=
  ⟨(clusterChainLengthFrom_walks drv).returns_iff hb c s,expandDirectory_returns_iff hb c n s,
    freeClusterChain_returns_iff hb c s⟩

/-- On a fresh volume. -/
theorem chain_walks_return_iff_fresh :
    ((getClusterChainLength (tinyDriver 4) 2).Returns (tinyVolume 4) ↔ ChainEnds (tinyDriver 4) (tinyVolume 4) 2) ∧
      ((expandDirectory (tinyDriver 4) 2 0).Returns (tinyVolume 4) ↔ ChainEnds (tinyDriver 4) (tinyVolume 4) 2) ∧
      ((freeClusterChain (tinyDriver 4) 2).Returns (tinyVolume 4) ↔ ChainEndsInside (tinyDriver 4) (tinyVolume 4) 2) :=
  chain_walks_return_iff rfl 2 0 (tinyVolume 4)

/-- The FAT entry of cluster 2 is a link to cluster 2. -/
def loopedVolume : Disk := ⟨overwrite (tinyVolume 4).data 520 [2,0,0,0]⟩

/-- Two loops go round for ever, the third meets the entry it has freed. -/
theorem looped_chain_never_ends :
    getClusterChainLength (tinyDriver 4) 2 loopedVolume = .error .diverge ∧
      expandDirectory (tinyDriver 4) 2 0 loopedVolume = .error .diverge ∧
      freeClusterChain (tinyDriver 4) 2 loopedVolume = .error .panic := by
  decide +kernel

end MofuOS.Filesystem.Fat32.Fat32Driver
