import MofuOS.Filesystem.Fat32.ChainWalk
import Mathlib.Data.List.TakeWhile

/-! Directories as lists of slots: what reading one lists and what writing one slot changes. -/
namespace MofuOS.Filesystem.Fat32
open Lib Io
open Prog (liftO)

/-- The first n slots of a directory's bytes. -/
def decodeSlots : Nat → List UInt8 → List DirectoryEntry
  | 0, _ => []
  | n + 1, bytes => .decode (bytes.take directoryEntrySize) :: decodeSlots n (bytes.drop directoryEntrySize)

/-- The slots in front of the first one that was never used. -/
def listed (entries : List DirectoryEntry) : List DirectoryEntry := entries.takeWhile fun e => !e.isEmpty

def FatView.slots (v : FatView) (l : List Nat) : List DirectoryEntry :=
  decodeSlots ((v.contents l).length / directoryEntrySize) (v.contents l)

@[simp] theorem FatView.slots_nil (v : FatView) : v.slots [] = [] := by
  simp [FatView.slots,FatView.contents,decodeSlots]

section Slots
variable {n i k : Nat} {bytes : List UInt8} {e : DirectoryEntry}

@[simp] theorem length_decodeSlots (n : Nat) (bytes : List UInt8) : (decodeSlots n bytes).length = n := by
  induction n generalizing bytes with
  | zero => rfl
  | succ n ih => rw [decodeSlots,List.length_cons,ih]

theorem getElem?_decodeSlots (n : Nat) (bytes : List UInt8) (i : Nat) :
    (decodeSlots n bytes)[i]? = if i < n then some (.decode (slice bytes (32 * i) 32)) else none := by
  induction n generalizing bytes i with
  | zero => simp [decodeSlots]
  | succ n ih =>
    cases i with
    | zero => simp [decodeSlots,slice,directoryEntrySize]
    | succ i =>
      rw [decodeSlots,List.getElem?_cons_succ,ih]
      simp only [slice,directoryEntrySize,List.drop_drop,Nat.add_lt_add_iff_right,Nat.mul_succ,Nat.add_comm 32]

/-- Encoding an entry into a slot replaces that slot. -/
theorem decodeSlots_overwrite (hn : 32 * n ≤ bytes.length) (hk : k < n) :
    decodeSlots n (overwrite bytes (32 * k) e.asBytes) = (decodeSlots n bytes).set k e := by
  have ho : 32 * k ≤ bytes.length := by omega
  have hlen := e.length_asBytes
  apply List.ext_getElem?
  intro i
  rw [getElem?_decodeSlots,List.getElem?_set,getElem?_decodeSlots,length_decodeSlots]
  by_cases hik : k = i
  · subst hik
    rw [if_pos hk,if_pos rfl,if_pos hk]
    have hself := slice_overwrite_self (d := e.asBytes) ho
    rw [hlen] at hself
    rw [hself,DirectoryEntry.decode_asBytes]
  · rw [if_neg hik]
    split_ifs with hi
    · rw [slice_overwrite_of_disjoint ho (by rw [hlen]; omega)]
    · rfl

theorem decodeSlots_append (m n : Nat) {a : List UInt8} (b : List UInt8) (ha : a.length = 32 * m) :
    decodeSlots (m + n) (a ++ b) = decodeSlots m a ++ decodeSlots n b := by
  induction m generalizing a with
  | zero =>
    obtain rfl : a = [] := List.eq_nil_of_length_eq_zero (by omega)
    rw [Nat.zero_add,decodeSlots]
    rfl
  | succ m ih =>
    have hle : directoryEntrySize ≤ a.length := by
      rw [directoryEntrySize]
      omega
    have hdrop : (a.drop directoryEntrySize).length = 32 * m := by
      rw [List.length_drop,directoryEntrySize]
      omega
    rw [Nat.add_right_comm,decodeSlots,decodeSlots,List.take_append_of_le_length hle,
      List.drop_append_of_le_length hle,ih hdrop]
    rfl

theorem decodeSlots_zero (n : Nat) : decodeSlots n (List.replicate (32 * n) 0) = List.replicate n .createEmpty := by
  induction n with
  | zero => rfl
  | succ n ih =>
    have htake : (List.replicate (32 * (n + 1)) (0 : UInt8)).take directoryEntrySize = List.replicate 32 0 := by
      rw [List.take_replicate,directoryEntrySize,Nat.min_eq_left (by omega)]
    have hdrop : (List.replicate (32 * (n + 1)) (0 : UInt8)).drop directoryEntrySize = List.replicate (32 * n) 0 := by
      rw [List.drop_replicate,directoryEntrySize,Nat.mul_succ,Nat.add_sub_cancel]
    rw [decodeSlots,htake,hdrop,ih,List.replicate_succ]
    congr 1

theorem listed_cons (x : DirectoryEntry) (xs : List DirectoryEntry) :
    listed (x :: xs) = if x.isEmpty then [] else x :: listed xs := by
  cases hx : x.isEmpty with
  | true => rw [listed,List.takeWhile_cons_of_neg (by simp [hx]),if_pos rfl]
  | false => rw [listed,List.takeWhile_cons_of_pos (by simp [hx]),if_neg Bool.false_ne_true,listed]

/-- The slots that a scan decodes: the listed ones and the unused one it stops at. -/
def examined (entries : List DirectoryEntry) : List DirectoryEntry := entries.take ((listed entries).length + 1)

theorem examined_cons (x : DirectoryEntry) (xs : List DirectoryEntry) :
    examined (x :: xs) = x :: if x.isEmpty then [] else examined xs := by
  cases hx : x.isEmpty <;> simp [examined,listed,hx]

/-- Every decoded slot passes through the assertion on its cluster field, and on nothing else. -/
theorem parseEntries_exact (hn : 32 * n ≤ bytes.length) :
    Fat32Driver.parseEntries n bytes =
      if ∀ e ∈ examined (decodeSlots n bytes), e.getFirstCluster ≤ maxClusterNumber then
        .ok (listed (decodeSlots n bytes))
      else .error .panic := by
  induction n generalizing bytes with
  | zero => rfl
  | succ n ih =>
    have htake : ¬ (bytes.take directoryEntrySize).length < 32 := by
      rw [List.length_take,directoryEntrySize]
      omega
    have hrest : Fat32Driver.parseEntries n (bytes.drop directoryEntrySize) = _ :=
      ih (by rw [List.length_drop,directoryEntrySize]; omega)
    rw [Fat32Driver.parseEntries,DirectoryEntry.fromBytes,if_neg htake,decodeSlots,examined_cons,hrest]
    by_cases hc : (DirectoryEntry.decode (bytes.take directoryEntrySize)).getFirstCluster ≤ maxClusterNumber
    · rw [if_neg (Nat.not_lt.mpr hc),ok_bind,listed_cons]
      by_cases he : (DirectoryEntry.decode (bytes.take directoryEntrySize)).isEmpty = true
      · simp [he,hc]
      · rw [if_neg he,if_neg he,if_neg he]
        simp only [List.mem_cons,forall_eq_or_imp,hc,true_and]
        split_ifs <;> rfl
    · rw [if_pos (Nat.not_le.mp hc),error_bind,if_neg fun hall => hc (hall _ List.mem_cons_self)]

theorem parseEntries_eq (hn : 32 * n ≤ bytes.length)
    (hc : ∀ e ∈ decodeSlots n bytes, e.getFirstCluster ≤ maxClusterNumber) :
    Fat32Driver.parseEntries n bytes = .ok (listed (decodeSlots n bytes)) :=
  (parseEntries_exact hn).trans (if_pos fun e he => hc e (List.mem_of_mem_take he))

theorem listed_getElem? {entries : List DirectoryEntry} (h : (listed entries)[i]? = some e) :
    entries[i]? = some e ∧ e.isEmpty = false := by
  have hmem := List.mem_takeWhile_imp (List.mem_of_getElem? h)
  obtain ⟨hi,he⟩ := List.getElem?_eq_some_iff.mp h
  have hpre := List.prefix_iff_getElem?.mp (List.takeWhile_prefix _) i hi
  exact ⟨hpre.trans (congrArg some he),by simpa using hmem⟩

/-- A slot with no unused slot up to it is listed. -/
theorem listed_of_front {entries : List DirectoryEntry} (hk : entries[k]? = some e)
    (h : ∀ i ≤ k, ∀ x, entries[i]? = some x → x.isEmpty = false) : (listed entries)[k]? = some e := by
  induction entries generalizing k with
  | nil => cases hk
  | cons x xs ih =>
    have hx : x.isEmpty = false := h 0 (Nat.zero_le k) x rfl
    rw [listed,List.takeWhile_cons_of_pos (by simp [hx])]
    cases k with
    | zero => exact hk
    | succ k => exact ih hk fun i hi y hy => h (i + 1) (Nat.succ_le_succ hi) y hy

/-- No slot in front of a listed one was never used. -/
theorem listed_front {entries : List DirectoryEntry} {j : Nat} {x : DirectoryEntry} (h : (listed entries)[i]? = some e)
    (hj : j ≤ i) (hx : entries[j]? = some x) : x.isEmpty = false := by
  have hlt := (List.getElem?_eq_some_iff.mp h).1
  obtain ⟨hslot,hne⟩ := listed_getElem? (List.getElem?_eq_getElem (Nat.lt_of_le_of_lt hj hlt))
  rw [hslot] at hx
  rwa [← Option.some.inj hx]

/-- Replacing a slot that is in use keeps the end of the listing. -/
theorem listed_set {entries : List DirectoryEntry} {e' : DirectoryEntry} (h : entries[k]? = some e)
    (he : e'.isEmpty = e.isEmpty) : listed (entries.set k e') = (listed entries).set k e' := by
  induction entries generalizing k with
  | nil => cases h
  | cons x xs ih =>
    cases k with
    | zero =>
      cases h
      rw [List.set_cons_zero,listed_cons,listed_cons,he]
      split_ifs <;> rfl
    | succ k =>
      rw [List.set_cons_succ,listed_cons,listed_cons,ih h]
      split_ifs <;> rfl

/-- A used slot behind the listing is listed as well. -/
theorem listed_set_end {slots : List DirectoryEntry} (hk : k = (listed slots).length) (hlt : k < slots.length) (he : e.isEmpty = false) :
    ∃ rest, listed (slots.set k e) = listed slots ++ e :: rest := by
  induction slots generalizing k with
  | nil => cases hlt
  | cons x xs ih =>
    rw [listed_cons] at hk ⊢
    split_ifs at hk ⊢ with hx
    · rw [hk,List.length_nil,List.set_cons_zero,listed_cons,if_neg (by simp [he])]
      exact ⟨_,rfl⟩
    · rw [List.length_cons] at hk
      subst hk
      obtain ⟨rest,hrest⟩ := ih rfl (Nat.lt_of_succ_lt_succ hlt)
      exact ⟨rest,by rw [List.set_cons_succ,listed_cons,if_neg hx,hrest]; rfl⟩

/-- Slots that were never used do not lengthen a listing. -/
theorem listed_append_unused (entries : List DirectoryEntry) (n : Nat) :
    listed (entries ++ List.replicate n .createEmpty) = listed entries := by
  induction entries with
  | nil => cases n <;> rfl
  | cons e entries ih =>
    rw [listed,listed] at ih
    cases he : e.isEmpty <;> simp [listed,he,ih]

/-- Behind a slot that was never used there are only such slots. -/
def Packed (entries : List DirectoryEntry) : Prop :=
  ∀ (i j : Nat) (x y : DirectoryEntry), i < j → entries[i]? = some x → entries[j]? = some y → x.isEmpty = true →
    y.isEmpty = true

theorem length_listed_le (entries : List DirectoryEntry) : (listed entries).length ≤ entries.length :=
  (List.takeWhile_prefix _).length_le

end Slots

namespace Fat32Driver
variable {drv : Fat32Driver} {v : FatView} {c d k : Nat} {l : List Nat} {e : DirectoryEntry}

def slotsPerCluster (drv : Fat32Driver) : Nat := drv.clusterSize / directoryEntrySize

section Geometry
variable (G : Geometry drv)
include G

theorem clusterSize_eq_slots : drv.clusterSize = 32 * slotsPerCluster drv := (Nat.mul_div_cancel' G.slots_dvd).symm

theorem slotsPerCluster_pos : 2 < slotsPerCluster drv := by
  have := clusterSize_eq_slots G
  have := G.clusterSize
  have := G.sectorsPerCluster
  omega

theorem length_slots (hs : Solid drv v) (hl : ∀ x ∈ l, inVolume drv x = true) :
    (v.slots l).length = l.length * slotsPerCluster drv := by
  rw [FatView.slots,length_decodeSlots,length_contents hs hl,directoryEntrySize,clusterSize_eq_slots G,
    Nat.mul_left_comm,Nat.mul_div_cancel_left _ (by decide)]

/-- A zeroed cluster behind a directory adds slots that were never used. -/
theorem slots_append_zero (hs : Solid drv v) (hl : ∀ x ∈ l, inVolume drv x = true)
    (hz : v.data c = List.replicate drv.clusterSize 0) :
    v.slots (l ++ [c]) = v.slots l ++ List.replicate (slotsPerCluster drv) .createEmpty := by
  have hcs := clusterSize_eq_slots G
  have hlen := length_contents hs hl
  have happ : v.contents (l ++ [c]) = v.contents l ++ List.replicate (32 * slotsPerCluster drv) 0 := by
    rw [FatView.contents,List.flatMap_append,List.flatMap_cons,List.flatMap_nil,List.append_nil,hz,hcs]
    rfl
  have hdiv : (v.contents l).length = 32 * ((v.contents l).length / 32) := by
    rw [hlen,hcs,Nat.mul_left_comm,Nat.mul_div_cancel_left _ (by decide)]
  have hcount : (v.contents (l ++ [c])).length / 32 = (v.contents l).length / 32 + slotsPerCluster drv := by
    rw [happ,List.length_append,List.length_replicate,Nat.add_mul_div_left _ _ (by decide)]
  rw [FatView.slots,FatView.slots,directoryEntrySize,hcount,happ,decodeSlots_append _ _ _ hdiv,decodeSlots_zero]

theorem readDirectoryEntries_runs (hs : Solid drv v) (h : Chained drv v d l)
    (hmax : ∀ e ∈ v.slots l, e.getFirstCluster ≤ maxClusterNumber) :
    (onDisk drv).Runs (readDirectoryEntries drv d) v (.ok (listed (v.slots l))) v := by
  rw [readDirectoryEntries]
  refine (getClusterChainLength_runs G hs h).bind ((readClusterChain_runs G hs h).bind (.liftO ?_ v))
  exact parseEntries_eq (Nat.mul_div_le _ 32) hmax

/-- Writing a slot of a directory overwrites its bytes and touches no other cluster. -/
theorem writeDirentry_contents (hs : Solid drv v) (h : Chained drv v d l) (hroom : 32 * k + 32 ≤ l.length * drv.clusterSize)
    (e : DirectoryEntry) :
    ∃ w, (onDisk drv).Runs (writeDirentry drv d k e) v (.ok ()) w ∧ Solid drv w ∧ w.fat = v.fat ∧
      (∀ x, x ∉ l → w.data x = v.data x) ∧ w.contents l = overwrite (v.contents l) (32 * k) e.asBytes := by
  have hlen := length_contents hs h.inside
  have hbuf : (overwrite (v.contents l) (32 * k) e.asBytes).length = l.length * drv.clusterSize := by
    rw [length_overwrite (by rw [e.length_asBytes,hlen]; exact hroom),hlen]
  have hfuel : l.length ≤ (overwrite (v.contents l) (32 * k) e.asBytes).length + 1 := by
    rw [hbuf]
    exact Nat.le_succ_of_le (Nat.le_mul_of_pos_right _ G.clusterSize_pos)
  obtain ⟨w,hw,hsw,hfat,hdata,hcont⟩ := writeClusterChainFrom_runs G hs h hbuf hfuel
  refine ⟨w,?_,hsw,hfat,hdata,hcont⟩
  rw [writeDirentry]
  refine (getClusterChainLength_runs G hs h).bind ((readClusterChain_runs G hs h).bind ?_)
  simp only [directoryEntrySize,Nat.mul_comm k]
  rw [if_neg (by omega),hlen,Nat.sub_self,List.replicate_zero,List.append_nil]
  exact hw

/-- Among the decoded slots it replaces that one. -/
theorem writeDirentry_runs (hs : Solid drv v) (h : Chained drv v d l) (hk : k < (v.slots l).length)
    (e : DirectoryEntry) :
    ∃ w, (onDisk drv).Runs (writeDirentry drv d k e) v (.ok ()) w ∧ Solid drv w ∧ w.fat = v.fat ∧
      (∀ x, x ∉ l → w.data x = v.data x) ∧ w.slots l = (v.slots l).set k e := by
  have hlen := length_contents hs h.inside
  rw [FatView.slots,length_decodeSlots,directoryEntrySize] at hk
  have hroom : 32 * k + 32 ≤ (v.contents l).length := by omega
  obtain ⟨w,hw,hsw,hfat,hdata,hcont⟩ := writeDirentry_contents G hs h (hlen ▸ hroom) e
  refine ⟨w,hw,hsw,hfat,hdata,?_⟩
  rw [FatView.slots,FatView.slots,directoryEntrySize,hcont,length_overwrite (by rw [e.length_asBytes]; exact hroom)]
  exact decodeSlots_overwrite (Nat.mul_div_le _ 32) hk

end Geometry

theorem slots_congr {w : FatView} (h : ∀ x ∈ l, w.data x = v.data x) : w.slots l = v.slots l := by
  rw [FatView.slots,FatView.slots,FatView.contents_congr h]

end Fat32Driver
end MofuOS.Filesystem.Fat32
