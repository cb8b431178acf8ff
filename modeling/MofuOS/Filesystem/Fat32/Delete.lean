import MofuOS.Filesystem.Fat32.Create
import MofuOS.Filesystem.Fat32.Handle

/-! Deletion: the chain of the object is freed and its slot is marked. -/
namespace MofuOS.Filesystem.Fat32
open Lib Io
open Prog (liftO)

namespace DirectoryEntry
variable (e : DirectoryEntry)

@[simp] theorem isDeleted_markDeleted : e.markDeleted.isDeleted = true := rfl
@[simp] theorem isValid_markDeleted : e.markDeleted.isValid = false := rfl
@[simp] theorem isChild_markDeleted : e.markDeleted.isChild = false := rfl

end DirectoryEntry

namespace Tree
variable {T : Tree} {c d k n : Nat} {e : DirectoryEntry}

theorem Ok.markDeleted (h : Ok n T) (hd : T.Dir d) (hk : (T.slots d)[k]? = some e) : Ok n (T.setSlot d k e.markDeleted) := by
  refine h.setSlot (fun _ => slotOk_of_not_valid ?_ rfl) fun hc => ?_
  · exact (h.slot hd (List.mem_of_getElem? hk)).number
  · cases hc

/-- No live entry behind a marked slot has its cluster. -/
theorem Tidy.markDeleted (h : Tidy T) (ho : Ok n T) (hd : T.Dir d) (hk : (T.slots d)[k]? = some e)
    (hc : e.isChild = true) : Tidy (T.setSlot d k e.markDeleted) := by
  refine h.setSlot (fun hv => nomatch hv) (fun _ j e' hj hj' hc' heq => ?_) fun hc => nomatch hc
  by_contra h0
  rw [DirectoryEntry.getFirstCluster_markDeleted] at heq
  have := ho.unique hd hk hj' hc hc' heq fun hz => h0 (heq.symm.trans hz)
  omega

/-- The only live entry of an object is marked, and the object goes. -/
theorem Ok.delete (h : Ok n T) (hd : T.Dir d) (hk : (T.slots d)[k]? = some e) (hc : e.isChild = true)
    (h0 : e.getFirstCluster ≠ 0) : Ok n ((T.setSlot d k e.markDeleted).remove e.getFirstCluster) := by
  have hch := (h.slot hd (List.mem_of_getElem? hk)).child hc h0
  refine (h.markDeleted hd hk).remove hch.notRoot fun {d' e'} hd' he' hc' heq => ?_
  obtain ⟨i,hi⟩ := List.getElem?_of_mem he'
  rcases slots_setSlot hi with ⟨-,-,rfl⟩ | ⟨hne,hold⟩
  · cases hc'
  · have h0' : e'.getFirstCluster ≠ 0 := fun hz => h0 (heq.symm.trans hz)
    have hdir : T.Dir d' := hd'
    have hch' := (h.slot hdir (List.mem_of_getElem? hold)).child hc' h0'
    obtain rfl : d' = d := by rw [← hch'.parent,heq,hch.parent]
    exact hne ⟨rfl,h.unique hd hold hk hc' hc heq h0'⟩

end Tree

namespace Fat32Driver
variable {drv : Fat32Driver} {v w u : FatView} {T : Tree} {c d k n : Nat} {e : DirectoryEntry} {id : FileNodeHandle}
  {a : UInt8}

theorem freeClusterChain_zero : (onDisk drv).Runs (freeClusterChain drv 0) v (.ok ()) v := by
  have hout : inVolume drv 0 = false := by
    rw [← Bool.not_eq_true,inVolume_iff]
    omega
  rw [freeClusterChain,freeClusterChainFrom,hout]
  exact .pure () v

/-- An entry without clusters has nothing to free. -/
theorem freeContents_zero : (onDisk drv).Runs (freeContents drv 0 a) v (.ok ()) v := by
  rw [freeContents]
  split_ifs
  · exact readDirectoryEntries_zero.bind freeClusterChain_zero
  · exact freeClusterChain_zero

section Delete
variable (G : Geometry drv)
include G

/-- A directory that lists entries is kept; any other object gives up its clusters. -/
theorem freeContents_runs (h : Sound drv v T) (hobj : T.chain c ≠ []) (ha : isDirectory a = T.isDir c) :
    (T.isDir c = true ∧ hasValidEntries (listed (T.slots c)) = true ∧
      (onDisk drv).Runs (freeContents drv c a) v (.error .directoryNotEmpty) v) ∨
    (¬ (T.isDir c = true ∧ hasValidEntries (listed (T.slots c)) = true) ∧
      ∃ w, (onDisk drv).Runs (freeContents drv c a) v (.ok ()) w ∧ Stored drv w (T.remove c) ∧ w.data = v.data ∧
        (∀ x ∈ T.chain c, w.fat x = 0) ∧ ∀ x, x ∉ T.chain c → w.fat x = v.fat x) := by
  obtain ⟨w,hw,hs,hdata,hzero,hfat⟩ := freeClusterChain_runs G h.stored.solid (h.stored.chained hobj)
  have hst := h.stored.free hs hdata hfat
  rw [freeContents,ha]
  cases hdir : T.isDir c with
  | false => exact .inr ⟨by simp,w,hw,hst,hdata,hzero,hfat⟩
  | true =>
    have hread := h.readDirectoryEntries_runs G ⟨hobj,hdir⟩
    cases hval : hasValidEntries (listed (T.slots c)) with
    | true =>
      refine .inl ⟨rfl,rfl,hread.bind ?_⟩
      simp only [hval]
      exact .fail _ v
    | false =>
      refine .inr ⟨by simp,w,hread.bind ?_,hst,hdata,hzero,hfat⟩
      simp only [hval]
      exact hw

/-- The steps of a deletion behind the lookup of slot k. -/
theorem delete_of_slot (h : Sound drv v T) (hd : T.Dir d) (hid : decodeNodeId id = (c,d,a))
    (hk : ((listed (T.slots d)).findIdx? fun e => !e.isDeleted && e.getFirstCluster == c) = some k)
    (he : (listed (T.slots d))[k]? = some e) {r : Except FileSystemError Unit}
    (hrun : (onDisk drv).Runs (do let _ ← freeContents drv c a; writeDirentry drv d k e.markDeleted) v r w) :
    (onDisk drv).Runs (delete drv id) v r w := by
  rw [delete,hid]
  refine (h.readDirectoryEntries_runs G hd).bind ?_
  simp only [hk,List.getD_eq_getElem?_getD,he,Option.getD_some]
  exact hrun

/-- Deleting the object behind slot k of another directory frees it and marks that slot. -/
theorem delete_runs (h : Sound drv v T) (hd : T.Dir d) (hid : decodeNodeId id = (c,d,a))
    (hk : ((listed (T.slots d)).findIdx? fun e => !e.isDeleted && e.getFirstCluster == c) = some k)
    (he : (listed (T.slots d))[k]? = some e) (hobj : T.chain c ≠ []) (ha : isDirectory a = T.isDir c) (hdc : d ≠ c) :
    (T.isDir c = true ∧ hasValidEntries (listed (T.slots c)) = true ∧
      (onDisk drv).Runs (delete drv id) v (.error .directoryNotEmpty) v) ∨
    (¬ (T.isDir c = true ∧ hasValidEntries (listed (T.slots c)) = true) ∧
      ∃ w, (onDisk drv).Runs (delete drv id) v (.ok ()) w ∧ Stored drv w ((T.setSlot d k e.markDeleted).remove c) ∧
        (∀ x ∈ T.chain c, w.fat x = 0) ∧ (∀ x, x ∉ T.chain c → w.fat x = v.fat x) ∧
        ∀ x, x ∉ T.chain d → w.data x = v.data x) := by
  refine (freeContents_runs G h hobj ha).imp ?_ ?_
  · rintro ⟨hdir,hval,hrun⟩
    exact ⟨hdir,hval,delete_of_slot G h hd hid hk he hrun.bind_error⟩
  · rintro ⟨hno,w,hrun,hst,hsame,hzero,hkept⟩
    have hd' : (T.remove c).Dir d := by
      refine ⟨?_,hd.2⟩
      rw [Tree.remove_chain,Function.update_of_ne hdc]
      exact hd.1
    have hlen : k < (T.slots d).length := (List.getElem?_eq_some_iff.mp (listed_getElem? he).1).1
    obtain ⟨u,hu,hst',hfat,hdata⟩ := hst.writeDirentry_runs G hd' hlen e.markDeleted
    rw [Tree.remove_chain,Function.update_of_ne hdc] at hdata
    exact ⟨hno,u,delete_of_slot G h hd hid hk he (hrun.bind hu),hst',hfat ▸ hzero,hfat ▸ hkept,hsame ▸ hdata⟩

/-- An entry without clusters: the first live slot of that kind is marked. -/
theorem delete_zero_runs (h : Sound drv v T) (hd : T.Dir d) (hid : decodeNodeId id = (0,d,a))
    (hk : ((listed (T.slots d)).findIdx? fun e => !e.isDeleted && e.getFirstCluster == 0) = some k)
    (he : (listed (T.slots d))[k]? = some e) :
    ∃ w, (onDisk drv).Runs (delete drv id) v (.ok ()) w ∧ Stored drv w (T.setSlot d k e.markDeleted) ∧
      w.fat = v.fat ∧ ∀ x, x ∉ T.chain d → w.data x = v.data x := by
  have hlen : k < (T.slots d).length := (List.getElem?_eq_some_iff.mp (listed_getElem? he).1).1
  obtain ⟨w,hw,hst,hfat,hdata⟩ := h.stored.writeDirentry_runs G hd hlen e.markDeleted
  exact ⟨w,delete_of_slot G h hd hid hk he (freeContents_zero.bind hw),hst,hfat,hdata⟩

end Delete
end Fat32Driver
end MofuOS.Filesystem.Fat32
