import MofuOS.Filesystem.Fat32.Write

/-! The operations on handles of a volume in good order. Each of them finds its entry again
by the cluster in the handle, so the first slot with that cluster decides. -/
namespace MofuOS.Filesystem.Fat32
open Lib Io
open Prog (liftO)

/-- The entry of a file whose contents end at n at least. -/
def DirectoryEntry.grown (e : DirectoryEntry) (n : Nat) : DirectoryEntry :=
  if e.fileSize.toNat < n then { e with fileSize := UInt32.ofNat n } else e

section Grown
variable (e : DirectoryEntry) (n : Nat)

@[simp] theorem getFirstCluster_grown : (e.grown n).getFirstCluster = e.getFirstCluster := by
  rw [DirectoryEntry.grown]
  split_ifs <;> rfl

@[simp] theorem firstByte_grown : (e.grown n).firstByte = e.firstByte := by
  rw [DirectoryEntry.grown]
  split_ifs <;> rfl

@[simp] theorem isDirectory_grown : (e.grown n).isDirectory = e.isDirectory := by
  rw [DirectoryEntry.grown]
  split_ifs <;> rfl

theorem fileSize_grown_le : (e.grown n).fileSize.toNat ≤ max e.fileSize.toNat n := by
  rw [DirectoryEntry.grown]
  split_ifs
  · exact (Nat.mod_le n _).trans (Nat.le_max_right ..)
  · exact Nat.le_max_left ..

theorem isValid_grown : (e.grown n).isValid = e.isValid := by
  simp only [DirectoryEntry.isValid,DirectoryEntry.isEmpty,DirectoryEntry.isDeleted,firstByte_grown]

theorem isChild_grown : (e.grown n).isChild = e.isChild := by
  rw [DirectoryEntry.isChild,DirectoryEntry.isChild,isValid_grown,firstByte_grown]

end Grown

theorem Tree.setSlot_self {T : Tree} {d k : Nat} {e : DirectoryEntry} (h : (T.slots d)[k]? = some e) :
    T.setSlot d k e = T := by
  have hset : (T.slots d).set k e = T.slots d := by
    obtain ⟨hk,rfl⟩ := List.getElem?_eq_some_iff.mp h
    exact List.set_getElem_self hk
  rw [Tree.setSlot,hset,Function.update_eq_self]

namespace Fat32Driver
variable {drv : Fat32Driver} {v w : FatView} {T : Tree} {c d k n : Nat} {e : DirectoryEntry} {id : FileNodeHandle}
  {a : UInt8} {p : Profile}

/-- Slot k of directory d holds the live entry e, and no slot in front of it has its cluster. -/
structure Leads (T : Tree) (d k : Nat) (e : DirectoryEntry) : Prop where
  slot : (listed (T.slots d))[k]? = some e
  live : e.isDeleted = false
  first : ∀ i e', i < k → (listed (T.slots d))[i]? = some e' → e'.getFirstCluster ≠ e.getFirstCluster

namespace Leads

theorem getElem? (h : Leads T d k e) : (T.slots d)[k]? = some e ∧ e.isValid = true := by
  obtain ⟨hs,hne⟩ := listed_getElem? h.slot
  exact ⟨hs,by rw [DirectoryEntry.isValid,hne,h.live]; rfl⟩

theorem find? (h : Leads T d k e) :
    ((listed (T.slots d)).find? fun e' => e'.getFirstCluster == e.getFirstCluster) = some e := by
  obtain ⟨hk,he⟩ := List.getElem?_eq_some_iff.mp h.slot
  refine List.find?_eq_some_iff_getElem.mpr ⟨beq_self_eq_true _,k,hk,he,fun i hi => ?_⟩
  simpa using h.first i _ hi (List.getElem?_eq_getElem _)

theorem findIdx? (h : Leads T d k e) :
    ((listed (T.slots d)).findIdx? fun e' => !e'.isDeleted && e'.getFirstCluster == e.getFirstCluster) = some k := by
  obtain ⟨hk,he⟩ := List.getElem?_eq_some_iff.mp h.slot
  refine List.findIdx?_eq_some_iff_getElem.mpr ⟨hk,?_,fun i hi => ?_⟩
  · rw [he,h.live]
    simp
  · have hne := h.first i _ hi (List.getElem?_eq_getElem (Nat.lt_trans hi hk))
    simp [hne]

end Leads

/-- What a write into the file behind slot k of directory d leaves: the file's chain is l', its bytes
are overwritten at the offset, and its slot is that of a file that ends at n at least. -/
structure WroteFile (drv : Fat32Driver) (T : Tree) (d k : Nat) (e : DirectoryEntry) (offset : Nat) (data : List UInt8) (n : Nat)
    (v w : FatView) (l' : List Nat) : Prop where
  sound : Sound drv w ((T.withChain e.getFirstCluster l').setSlot d k (e.grown n))
  contents : ∃ m, w.contents l' = overwrite (v.contents (T.chain e.getFirstCluster) ++ List.replicate m 0) offset data
  room : offset + data.length ≤ l'.length * drv.clusterSize
  frame : ∀ x, x ∉ l' → x ∉ T.chain d → w.data x = v.data x

section Handles
variable (G : Geometry drv)
include G

theorem findEntryByCluster_runs (h : Sound drv v T) (hd : T.Dir d) (hl : Leads T d k e) :
    (onDisk drv).Runs (findEntryByCluster drv d e.getFirstCluster) v (.ok e) v := by
  refine (h.readDirectoryEntries_runs G hd).bind ?_
  simp only [hl.find?]
  exact .pure e v

/-- The first live slot k with the cluster, and no other, is written when the end lies behind the size in e₀. -/
theorem updateFileSize_runs (e₀ : DirectoryEntry) (h : Sound drv v T) (hd : T.Dir d)
    (hidx : ((listed (T.slots d)).findIdx? fun e' => !e'.isDeleted && e'.getFirstCluster == c) = some k)
    (hslot : (T.slots d)[k]? = some e) (n : Nat) :
    ∃ w, (onDisk drv).Runs (updateFileSize drv d c e₀ n) v (.ok ()) w ∧
      Stored drv w (T.setSlot d k (if e₀.fileSize.toNat < n then { e₀ with fileSize := UInt32.ofNat n } else e)) ∧
      w.fat = v.fat ∧ ∀ x, x ∉ T.chain d → w.data x = v.data x := by
  rw [updateFileSize]
  have hk : k < (T.slots d).length := (List.getElem?_eq_some_iff.mp hslot).1
  split_ifs with hgrow
  · obtain ⟨w,hw,hst,hfat,hdata⟩ := h.stored.writeDirentry_runs G hd hk { e₀ with fileSize := UInt32.ofNat n }
    refine ⟨w,(h.readDirectoryEntries_runs G hd).bind ?_,hst,hfat,hdata⟩
    simp only [hidx]
    exact hw
  · refine ⟨v,.pure () v,?_,rfl,fun _ _ => rfl⟩
    rw [Tree.setSlot_self hslot]
    exact h.stored

theorem readFile_runs (h : Sound drv v T) (hd : T.Dir d) (hl : Leads T d k e) (hf : e.isDirectory = false)
    (hc : e.isChild = true) (h0 : e.getFirstCluster ≠ 0) (hid : decodeNodeId id = (e.getFirstCluster,d,a))
    (ha : isDirectory a = false) (offset outLen : Nat) :
    (onDisk drv).Runs (readFile drv id offset outLen) v
      (.ok (slice ((v.contents (T.chain e.getFirstCluster)).take e.fileSize.toNat) offset outLen)) v := by
  have hch := (h.ok.slot hd (List.mem_of_getElem? hl.getElem?.1)).child hc h0
  simp only [readFile,hid,ha,Bool.false_eq_true,if_false,if_neg h0]
  exact (findEntryByCluster_runs G h hd hl).bind
    (readContents_runs G h.stored.solid (h.stored.chained hch.object) (hch.fileSize hf) offset outLen)

omit G in
/-- A grown entry is as good as the entry was, provided the chain reaches the new end. -/
theorem Sound.setGrown (h : Sound drv v T) (hd : T.Dir d) (hl : Leads T d k e) (hf : e.isDirectory = false)
    (hc : e.isChild = true) (h0 : e.getFirstCluster ≠ 0)
    (hn : n ≤ (T.chain e.getFirstCluster).length * drv.clusterSize) : (T.setSlot d k (e.grown n)).Ok drv.clusterSize := by
  have hslot := hl.getElem?.1
  have hok := h.ok.slot hd (List.mem_of_getElem? hslot)
  have hch := hok.child hc h0
  refine h.ok.setSlot (fun _ => ?_) fun _ _ i e' hi hi' hc' heq => ?_
  · refine ⟨?_,fun hv hb => ?_,fun _ hz => ?_,fun _ _ => ?_⟩
    · rw [getFirstCluster_grown]
      exact hok.number
    · rw [isValid_grown] at hv
      rw [firstByte_grown] at hb
      rw [DirectoryEntry.isChild,hb,hv] at hc
      cases hc
    · rw [getFirstCluster_grown] at hz
      exact absurd hz h0
    · refine ⟨?_,?_,?_,?_,?_,fun hdir => ?_,fun _ => ?_⟩
      · rw [getFirstCluster_grown]
        exact hch.object
      · rw [getFirstCluster_grown]
        exact hch.notRoot
      · rw [getFirstCluster_grown,isDirectory_grown]
        exact hch.kind
      · rw [getFirstCluster_grown]
        exact hch.parent
      · rw [getFirstCluster_grown]
        exact hch.depth
      · rw [isDirectory_grown,hf] at hdir
        cases hdir
      · rw [getFirstCluster_grown]
        exact (fileSize_grown_le e n).trans (max_le (hch.fileSize hf) hn)
  · rw [getFirstCluster_grown] at heq
    exact hi (h.ok.unique hd hi' hslot hc' hc heq fun hz => h0 (heq.symm.trans hz))

/-- A write through the cluster c of a file, where e₀ is the first slot with this cluster and slot k, of the
entry e, the first live one. -/
theorem writeFile_outcome (h : Sound drv v T) (hd : T.Dir d) {e₀ : DirectoryEntry}
    (hfind : ((listed (T.slots d)).find? fun e' => e'.getFirstCluster == c) = some e₀)
    (hidx : ((listed (T.slots d)).findIdx? fun e' => !e'.isDeleted && e'.getFirstCluster == c) = some k)
    (hslot : (T.slots d)[k]? = some e) (hobj : T.chain c ≠ []) (hfile : T.isDir c = false) (h0 : c ≠ 0)
    (hid : decodeNodeId id = (c,d,a)) (ha : isDirectory a = false) (offset : Nat) {data : ByteSlice} (hne : data.val ≠ [])
    (hn : usizeAdd p offset data.val.length = .ok n) :
    ∃ r w l', (onDisk drv).Runs (writeFile drv p id offset data) v r w ∧ Took drv v (T.chain c) w l' ∧
      ((r = .ok data.val.length ∧ ∃ u, Wrote drv T c offset data.val v (T.chain c) u l' ∧
          Stored drv w ((T.withChain c l').setSlot d k
            (if e₀.fileSize.toNat < n then { e₀ with fileSize := UInt32.ofNat n } else e)) ∧
          ∀ x, x ∉ T.chain d → w.data x = u.data x) ∨
        (r = .error .noSpace ∧ Put drv T c offset data.val v (T.chain c) w l' ∧ Full drv (offset + data.val.length) w l')) := by
  have hempty : data.val.isEmpty = false := by simpa using hne
  have hentry : (onDisk drv).Runs (findEntryByCluster drv d c) v (.ok e₀) v := by
    refine (h.readDirectoryEntries_runs G hd).bind ?_
    simp only [hfind]
    exact .pure e₀ v
  simp only [writeFile,hempty,hid,ha,Bool.false_eq_true,if_false,if_neg h0]
  obtain ⟨r,w,l',hrun,hput,hres⟩ := writeContents_runs G hfile h hobj offset hne
  rcases hres with ⟨rfl,hroom⟩ | ⟨rfl,hfull⟩
  · have hd' : (T.withChain c l').Dir d := (Tree.dir_withChain hfile).mpr hd
    have hdc : d ≠ c := by
      rintro rfl
      rw [hd.2] at hfile
      cases hfile
    have hdchain : (T.withChain c l').chain d = T.chain d := Function.update_of_ne hdc ..
    obtain ⟨u,hu,hst,hfat,hframe⟩ := updateFileSize_runs G e₀ hput.sound hd' hidx hslot n
    rw [hdchain] at hframe
    have htook : Took drv v (T.chain c) u l' := hput.took.trans (.of_fat hfat)
    refine ⟨.ok data.val.length,u,l',hentry.bind ((Abstraction.Runs.liftO hn v).bind (hrun.bind (hu.bind (.pure _ u)))),
      htook,.inl ⟨rfl,w,hput.wrote hroom,hst,hframe⟩⟩
  · exact ⟨.error .noSpace,w,l',hentry.bind ((Abstraction.Runs.liftO hn v).bind hrun.bind_error),hput.took,
      .inr ⟨rfl,hput,hfull⟩⟩

/-- A write to a file returns the number of its bytes, or runs out of space before the entry is written. -/
theorem writeFile_runs (h : Sound drv v T) (hd : T.Dir d) (hl : Leads T d k e) (hf : e.isDirectory = false)
    (hc : e.isChild = true) (h0 : e.getFirstCluster ≠ 0) (hid : decodeNodeId id = (e.getFirstCluster,d,a))
    (ha : isDirectory a = false) (offset : Nat) {data : ByteSlice} (hne : data.val ≠ [])
    (hn : usizeAdd p offset data.val.length = .ok n) :
    ∃ r w l', (onDisk drv).Runs (writeFile drv p id offset data) v r w ∧ Took drv v (T.chain e.getFirstCluster) w l' ∧
      ((r = .ok data.val.length ∧ WroteFile drv T d k e offset data.val n v w l') ∨
        (r = .error .noSpace ∧ Put drv T e.getFirstCluster offset data.val v (T.chain e.getFirstCluster) w l' ∧
          Full drv (offset + data.val.length) w l')) := by
  have hslot := hl.getElem?.1
  have hch := (h.ok.slot hd (List.mem_of_getElem? hslot)).child hc h0
  have hfile : T.isDir e.getFirstCluster = false := hch.kind ▸ hf
  obtain ⟨r,w,l',hrun,htook,hres⟩ := writeFile_outcome G h hd hl.find? hl.findIdx? hslot hch.object hfile h0 hid ha offset hne hn
  refine ⟨r,w,l',hrun,htook,hres.imp_left ?_⟩
  rintro ⟨rfl,u,hw,hst,hframe⟩
  have hd' : (T.withChain e.getFirstCluster l').Dir d := (Tree.dir_withChain hfile).mpr hd
  have hl' : Leads (T.withChain e.getFirstCluster l') d k e := ⟨hl.slot,hl.live,hl.first⟩
  have hchain : (T.withChain e.getFirstCluster l').chain e.getFirstCluster = l' := Function.update_self ..
  have hdc : d ≠ e.getFirstCluster := by
    rintro hdc
    rw [← hdc,hd.2] at hfile
    cases hfile
  have hdchain : (T.withChain e.getFirstCluster l').chain d = T.chain d := Function.update_of_ne hdc ..
  have hapart : ∀ x ∈ l', x ∉ T.chain d := fun x hx hx' =>
    hdc (hw.sound.stored.forest.disjoint d e.getFirstCluster x (hdchain.symm ▸ hx') (hchain.symm ▸ hx))
  refine ⟨rfl,⟨⟨hst,hw.sound.setGrown hd' hl' hf hc h0 ?_⟩,?_,hw.room,fun x hx hx' => ?_⟩⟩
  · rw [hchain]
    exact (usizeAdd_le hn).trans hw.room
  · obtain ⟨m,hm⟩ := hw.contents
    refine ⟨m,?_⟩
    rw [← hm]
    exact FatView.contents_congr fun x hx => hframe x (hapart x hx)
  · rw [hframe x hx',hw.frame x hx]

end Handles
end Fat32Driver
end MofuOS.Filesystem.Fat32
