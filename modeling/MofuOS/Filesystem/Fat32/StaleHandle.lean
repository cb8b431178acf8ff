import MofuOS.Filesystem.Fat32.ReadAfterWrite

/-! Handles of deleted files. A deletion leaves the cluster in the marked slot, and the lookup of
a handle does not skip marked slots. -/
namespace MofuOS.Filesystem.Fat32
open Lib Io

namespace Fat32Driver
variable {drv : Fat32Driver} {p : Profile} {s t u : Disk} {T : Tree} {c d q : Nat} {e : DirectoryEntry}
  {id : FileNodeHandle} {a : UInt8} {path : List Char}

section ReadOnly

theorem readFatEntry_readOnly (drv : Fat32Driver) (c : Nat) : Prog.ReadOnly (readFatEntry drv c) := by
  refine (Prog.ReadOnly.liftO _).bind fun n => ?_
  refine (Disk.readSector_readOnly _ _).bind fun buffer => ?_
  exact (Prog.ReadOnly.liftO _).bind fun _ => .pure _

theorem getNextCluster_readOnly (drv : Fat32Driver) (c : Nat) : Prog.ReadOnly (getNextCluster drv c) := by
  rw [getNextCluster]
  split_ifs
  · exact .pure _
  · refine (readFatEntry_readOnly drv c).bind fun n => ?_
    split_ifs
    · exact .pure _
    · exact .fail _
    · exact .pure _
    · exact .pure _

theorem clusterChainLengthFrom_readOnly (drv : Fat32Driver) (fuel c : Nat) :
    Prog.ReadOnly (clusterChainLengthFrom drv fuel c) := by
  induction fuel generalizing c with
  | zero => exact .fault _
  | succ fuel ih =>
    rw [clusterChainLengthFrom]
    split_ifs
    · refine (getNextCluster_readOnly drv c).bind fun next => ?_
      cases next with
      | none => exact .pure _
      | some n => exact (ih n).bind fun _ => .pure _
    · exact .pure _

theorem readClusterChainFrom_readOnly (drv : Fat32Driver) (fuel c n : Nat) :
    Prog.ReadOnly (readClusterChainFrom drv fuel c n) := by
  induction fuel generalizing c n with
  | zero => exact .fault _
  | succ fuel ih =>
    rw [readClusterChainFrom]
    split_ifs
    · refine (Disk.readSectors_readOnly _ _ _).bind fun buffer => ?_
      refine (getNextCluster_readOnly drv c).bind fun next => ?_
      cases next with
      | none => exact .pure _
      | some x => exact (ih x _).bind fun _ => .pure _
    · exact .pure _

theorem readDirectoryEntries_readOnly (drv : Fat32Driver) (d : Nat) : Prog.ReadOnly (readDirectoryEntries drv d) :=
  (clusterChainLengthFrom_readOnly drv _ d).bind fun _ => (readClusterChainFrom_readOnly drv _ d _).bind fun _ => .liftO _

end ReadOnly

/-- Every use of the handle is answered by an error and changes nothing. -/
structure Dead (drv : Fat32Driver) (p : Profile) (id : FileNodeHandle) (s : Disk) : Prop where
  getNode : ∃ err, getNode drv id s = .ok (.error err,s)
  readFile : ∀ offset outLen, ∃ err, readFile drv id offset outLen s = .ok (.error err,s)
  writeFile : ∀ offset data, data.val ≠ [] → ∃ err, writeFile drv p id offset data s = .ok (.error err,s)

/-- Directory d cannot be read, or none of its slots, marked ones included, has cluster c. -/
def Unlisted (drv : Fat32Driver) (s : Disk) (d c : Nat) : Prop :=
  (∃ err, readDirectoryEntries drv d s = .ok (.error err,s)) ∨
    ∃ entries, readDirectoryEntries drv d s = .ok (.ok entries,s) ∧ ∀ e ∈ entries, e.getFirstCluster ≠ c

/-- The lookup by cluster fails exactly where the cluster is not listed. -/
theorem findEntryByCluster_error_iff :
    (∃ err, findEntryByCluster drv d c s = .ok (.error err,s)) ↔ Unlisted drv s d c := by
  constructor
  · rintro ⟨err,h⟩
    obtain ⟨err',he,-⟩ | ⟨entries,t,hread,h⟩ := Prog.bind_returns h
    · exact .inl ⟨err',he⟩
    · cases readDirectoryEntries_readOnly drv d _ _ _ hread
      refine .inr ⟨entries,hread,fun e he heq => ?_⟩
      cases hfind : entries.find? fun e => e.getFirstCluster == c with
      | none =>
        have := List.find?_eq_none.mp hfind e he
        simp [heq] at this
      | some e' =>
        simp only [hfind] at h
        cases h
  · rintro (⟨err,h⟩ | ⟨entries,h,hno⟩)
    · exact ⟨err,Prog.run_bind_error h⟩
    · have hfind : (entries.find? fun e => e.getFirstCluster == c) = none := by
        refine List.find?_eq_none.mpr fun e he => ?_
        simpa using hno e he
      refine ⟨.notFound,?_⟩
      rw [findEntryByCluster,Prog.run_bind_ok h]
      simp only [hfind]
      rfl

/-- The handle of a file is dead exactly where its cluster is not listed. -/
theorem dead_iff (hid : decodeNodeId id = (c,d,a)) (ha : isDirectory a = false) :
    Dead drv p id s ↔ c ≠ rootCluster ∧ Unlisted drv s d c := by
  rw [← findEntryByCluster_error_iff]
  constructor
  · rintro ⟨⟨err,h⟩,-,-⟩
    by_cases hroot : c = rootCluster
    · rw [Fat32Driver.getNode,hid] at h
      simp only [hroot,ne_eq,not_true_eq_false,if_false] at h
      cases h
    · simp only [Fat32Driver.getNode,hid,ne_eq,hroot,not_false_eq_true,if_true] at h
      obtain ⟨err',he,-⟩ | ⟨e,t,-,h⟩ := Prog.bind_returns h
      · exact ⟨hroot,err',he⟩
      · cases h
  · rintro ⟨hroot,err,h⟩
    refine ⟨⟨err,?_⟩,fun offset outLen => ?_,fun offset data hne => ?_⟩
    · simp only [Fat32Driver.getNode,hid,if_pos hroot]
      exact Prog.run_bind_error h
    · simp only [Fat32Driver.readFile,hid,ha,Bool.false_eq_true,if_false]
      split_ifs
      · exact ⟨_,rfl⟩
      · exact ⟨err,Prog.run_bind_error h⟩
    · have hempty : data.val.isEmpty = false := by simpa using hne
      simp only [Fat32Driver.writeFile,hempty,hid,ha,Bool.false_eq_true,if_false]
      split_ifs
      · exact ⟨_,rfl⟩
      · exact ⟨err,Prog.run_bind_error h⟩

/-- On a volume in order the deletion of a file leaves its cluster listed. -/
theorem delete_leaves_listed (G : Geometry drv) (h : InOrder drv t) (ht : findNode drv path t = .ok (.ok id,s))
    (hid : decodeNodeId id = (c,d,a)) (ha : isDirectory a = false) (hdel : delete drv id s = .ok (.ok (),u)) :
    ¬ Unlisted drv u d c := by
  obtain ⟨hgood,T,ho⟩ := h
  rcases findNode_handled G ho.toSound path with ⟨err,hfind⟩ | ⟨id',e,q,hfind,-,hh⟩
  · cases (hfind.returns hgood ht).1
  obtain ⟨hideq,hs,hview⟩ := hfind.returns hgood ht
  cases hideq
  have hview : viewOf drv s = viewOf drv t := hview
  have hh' := hh
  obtain ⟨rfl,⟨rfl,rfl⟩ | ⟨part,hfound⟩⟩ := hh
  · rw [decode_root] at hid
    cases hid
    cases ha
  rw [hfound.decode G ho.toSound] at hid
  cases hid
  rw [isDirectory_attributes] at ha
  have hnodot : e.firstByte = 0x2E → T.Dir e.getFirstCluster →
      hasValidEntries (listed (T.slots e.getFirstCluster)) = true := by
    intro hb
    have := ((ho.ok.slot (hfound.attached.dir ho.ok) hfound.mem.1).dot hfound.mem.2 hb).2.1
    rw [ha] at this
    cases this
  rcases delete_own G ho hh' hnodot with ⟨err,hrun⟩ | ⟨w,T',hrun,ho',-,hdeleted⟩
  · rw [← hview] at hrun
    cases (hrun.returns hs hdel).1
  rw [← hview] at hrun
  obtain ⟨-,hu,hviewu⟩ := hrun.returns hs hdel
  have hviewu : viewOf drv u = w := hviewu
  obtain ⟨hdir,k,e',hk,hcl,hslots⟩ := hdeleted.marked
  have hread := lists_listed G hu (hviewu ▸ ho'.toSound) hdir
  have hslot := (listed_getElem? hk).1
  have hkeep : e'.markDeleted.isEmpty = e'.isEmpty := by
    rw [(listed_getElem? hk).2]
    rfl
  rw [hslots,listed_set hslot hkeep] at hread
  obtain ⟨t',hread⟩ := hread
  have hmem : e'.markDeleted ∈ (listed (T.slots d)).set k e'.markDeleted :=
    List.mem_set (List.getElem?_eq_some_iff.mp hk).1 _
  rintro (⟨err,herr⟩ | ⟨entries,hentries,hno⟩)
  · rw [herr] at hread
    cases hread
  · rw [hentries] at hread
    cases hread
    exact hno _ hmem hcl

/-- In whatever state it is used after the deletion of its file, a handle is dead exactly where no
slot of the parent has its cluster; right after the deletion it is alive. -/
theorem run_deleted_handle {ops : List FatOp} {rs : List (Except FileSystemError FatReply)} {t₁ : Disk}
    (h : Fresh p drv s) (hrun : runAll (exec drv p) ops s = .ok (rs,t)) (hfind : findNode drv path t = .ok (.ok id,t₁))
    (hid : decodeNodeId id = (c,d,a)) (ha : isDirectory a = false) (hdel : delete drv id t₁ = .ok (.ok (),u)) :
    (∀ v, Dead drv p id v ↔ c ≠ rootCluster ∧ Unlisted drv v d c) ∧
      (meets (exec drv p) (sparesDots drv) ops s = true → ¬ Dead drv p id u) := by
  refine ⟨fun v => dead_iff hid ha,fun hc hdead => ?_⟩
  exact delete_leaves_listed h.geometry (h.run_inOrder hc hrun) hfind hid ha hdel ((dead_iff hid ha).mp hdead).2

/-- The file F is deleted and its handle used once more. -/
private def deleteSeen (t : Disk) : Option (FileNodeHandle × Disk × Disk × FileNode × Disk) :=
  match findNode smallDriver ['F'] t with
  | .ok (.ok id,t₁) =>
    match delete smallDriver id t₁ with
    | .ok (.ok (),u) =>
      match getNode smallDriver id u with
      | .ok (.ok node,u') => some (id,t₁,u,node,u')
      | _ => none
    | _ => none
  | _ => none

private theorem deleteSeen_eq {t t₁ u u' : Disk} {node : FileNode} (h : deleteSeen t = some (id,t₁,u,node,u')) :
    findNode smallDriver ['F'] t = .ok (.ok id,t₁) ∧ delete smallDriver id t₁ = .ok (.ok (),u) ∧
      getNode smallDriver id u = .ok (.ok node,u') := by
  rw [deleteSeen] at h
  split at h
  · split at h
    · split at h
      · cases h
        exact ⟨‹_›,‹_›,‹_›⟩
      · cases h
    · cases h
  · cases h

private theorem deleteSeen_small : ∃ rs t id t₁ u node u',
    runAll (exec smallDriver .dev) [.createFile ['/'] ['F']] smallVolume = .ok (rs,t) ∧
      deleteSeen t = some (id,t₁,u,node,u') ∧ isDirectory (decodeNodeId id).2.2 = false := by
  have htrace : ((runAll (exec smallDriver .dev) [.createFile ['/'] ['F']] smallVolume).toOption.map fun x =>
      (deleteSeen x.2).map fun y => isDirectory (decodeNodeId y.1).2.2) = some (some false) := by decide +kernel
  obtain ⟨rs,t,hrun,ht⟩ := runAll_of_view htrace
  obtain ⟨⟨id,t₁,u,node,u'⟩,hseen,hdir⟩ := Option.map_eq_some_iff.mp ht
  exact ⟨rs,t,id,t₁,u,node,u',hrun,hseen,hdir⟩

theorem run_deleted_handle_small : ∃ t id t₁ u, findNode smallDriver ['F'] t = .ok (.ok id,t₁) ∧
    delete smallDriver id t₁ = .ok (.ok (),u) ∧ ¬ Dead smallDriver .dev id u := by
  have hc : meets (exec smallDriver .dev) (sparesDots smallDriver) [.createFile ['/'] ['F']] smallVolume = true := by
    refine meets_of_forall fun op hop s => ?_
    rw [List.mem_singleton.mp hop]
    rfl
  obtain ⟨rs,t,id,t₁,u,node,u',hrun,hseen,hdir⟩ := deleteSeen_small
  obtain ⟨hfind,hdel,-⟩ := deleteSeen_eq hseen
  exact ⟨t,id,t₁,u,hfind,hdel,(run_deleted_handle (smallVolume_fresh .dev) hrun hfind rfl hdir hdel).2 hc⟩

/-- The handle of a deleted file still gives its metadata, with nothing run in between. -/
theorem deleted_handle_answers : Fresh .dev smallDriver smallVolume ∧ ∃ rs t id t₁ u node u',
    runAll (exec smallDriver .dev) [.createFile ['/'] ['F']] smallVolume = .ok (rs,t) ∧
      findNode smallDriver ['F'] t = .ok (.ok id,t₁) ∧ isDirectory (decodeNodeId id).2.2 = false ∧
      delete smallDriver id t₁ = .ok (.ok (),u) ∧ getNode smallDriver id u = .ok (.ok node,u') := by
  obtain ⟨rs,t,id,t₁,u,node,u',hrun,hseen,hdir⟩ := deleteSeen_small
  obtain ⟨hfind,hdel,hnode⟩ := deleteSeen_eq hseen
  exact ⟨smallVolume_fresh .dev,rs,t,id,t₁,u,node,u',hrun,hfind,hdir,hdel,hnode⟩

end Fat32Driver
end MofuOS.Filesystem.Fat32
