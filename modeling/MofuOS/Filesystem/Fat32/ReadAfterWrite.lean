import MofuOS.Filesystem.Fat32.Integrity

/-! Reading a file back after a write, and what the write leaves alone. -/
namespace MofuOS.Filesystem.Fat32
open Lib Io

namespace Fat32Driver
variable {drv : Fat32Driver} {p : Profile} {s t u : Disk} {v w : FatView} {T : Tree} {c d k n : Nat} {e : DirectoryEntry}
  {id : FileNodeHandle} {a : UInt8} {path : List Char}

/-- What a write to the file in slot k of directory d leaves of everything else: the listings are the
same but for that slot, the chains are the same, and so are the bytes of all files and other directories. -/
structure Isolated (drv : Fat32Driver) (s t : Disk) (d k : Nat) (e' : DirectoryEntry) : Prop where
  lists : ∀ x entries, Reachable drv s x → Lists drv s x entries →
    Lists drv t x (if x = d then entries.set k e' else entries)
  chains : ∀ x j e l, LiveEntry drv s x j e → (x,j) ≠ (d,k) → GoodChain drv s e.getFirstCluster l →
    GoodChain drv t e.getFirstCluster l ∧
      (e.getFirstCluster ≠ d → (viewOf drv t).contents l = (viewOf drv s).contents l)
  root : ∀ l, GoodChain drv s drv.bootSector.rootCluster l → GoodChain drv t drv.bootSector.rootCluster l ∧
    (drv.bootSector.rootCluster ≠ d → (viewOf drv t).contents l = (viewOf drv s).contents l)

/-- The slot of a written file leads to it as before. -/
theorem Leads.grown (h : Leads T d k e) (l : List Nat) (n : Nat) :
    Leads ((T.withChain c l).setSlot d k (e.grown n)) d k (e.grown n) := by
  obtain ⟨hslot,hvalid⟩ := h.getElem?
  have hempty : (e.grown n).isEmpty = e.isEmpty := by
    rw [DirectoryEntry.isEmpty,DirectoryEntry.isEmpty,firstByte_grown]
  have hlist : listed (((T.withChain c l).setSlot d k (e.grown n)).slots d) = (listed (T.slots d)).set k (e.grown n) := by
    rw [Tree.setSlot_slots,Function.update_self,Tree.withChain_slots,listed_set hslot hempty]
  have hk : k < (listed (T.slots d)).length := (List.getElem?_eq_some_iff.mp h.slot).1
  refine ⟨?_,?_,fun i e' hi he' => ?_⟩
  · rw [hlist,List.getElem?_set_self hk]
  · rw [DirectoryEntry.isDeleted,firstByte_grown,← DirectoryEntry.isDeleted,h.live]
  · rw [hlist,List.getElem?_set_ne (by omega)] at he'
    rw [getFirstCluster_grown]
    exact h.first i e' hi he'

section Isolation
variable {offset : Nat} {data : List UInt8} {l' : List Nat} (G : Geometry drv) (hs : Holds drv s) (ht : Holds drv t)
  (h : Sound drv (viewOf drv s) T) (hatt : T.Attached d) (hl : Leads T d k e) (hc : e.isChild = true)
  (h0 : e.getFirstCluster ≠ 0) (hf : T.isDir e.getFirstCluster = false)
  (hw : WroteFile drv T d k e offset data n (viewOf drv s) (viewOf drv t) l')
include G hs h

/-- Another live entry names another object. -/
private theorem other_object {x j : Nat} {e₁ : DirectoryEntry} (hatt : T.Attached d) (hl : Leads T d k e)
    (hc : e.isChild = true) (h0 : e.getFirstCluster ≠ 0) (hlive : LiveEntry drv s x j e₁) (hne : (x,j) ≠ (d,k)) :
    e₁.getFirstCluster ≠ e.getFirstCluster := by
  intro heq
  obtain ⟨hatt₁,hslot₁,hch₁⟩ := hlive.stored G hs h
  have hslot := hl.getElem?.1
  have hch := (h.ok.slot (hatt.dir h.ok) (List.mem_of_getElem? hslot)).child hc h0
  obtain rfl : x = d := by rw [← hch₁.parent,heq,hch.parent]
  exact hne (by rw [h.ok.unique (hatt.dir h.ok) hslot₁ hslot hlive.child hc heq hlive.cluster])

include hw

omit G hs in
/-- The chain of another object, and its bytes unless it is the directory of the file. -/
private theorem other_chain {c : Nat} (hobj : T.chain c ≠ []) (hne : c ≠ e.getFirstCluster) :
    GoodChain drv t c (T.chain c) ∧
      (c ≠ d → (viewOf drv t).contents (T.chain c) = (viewOf drv s).contents (T.chain c)) := by
  have hchain : ((T.withChain e.getFirstCluster l').setSlot d k (e.grown n)).chain c = T.chain c := by
    rw [Tree.setSlot_chain,Tree.withChain_chain,Function.update_of_ne hne]
  have hfile : ((T.withChain e.getFirstCluster l').setSlot d k (e.grown n)).chain e.getFirstCluster = l' := by
    rw [Tree.setSlot_chain,Tree.withChain_chain,Function.update_self]
  have hgood := goodChain_of_object hw.sound (c := c) (by rwa [hchain])
  rw [hchain] at hgood
  refine ⟨hgood,fun hcd => FatView.contents_congr fun y hy => hw.frame y (fun hy' => ?_) fun hy' => ?_⟩
  · exact hne (hw.sound.stored.forest.disjoint c e.getFirstCluster y (hchain.symm ▸ hy) (hfile.symm ▸ hy'))
  · exact hcd (h.stored.forest.disjoint c d y hy hy')

include ht hatt hl hc h0 hf

theorem WroteFile.isolated : Isolated drv s t d k (e.grown n) := by
  have hslot := hl.getElem?.1
  have hch := (h.ok.slot (hatt.dir h.ok) (List.mem_of_getElem? hslot)).child hc h0
  refine ⟨fun x entries hx hlist => ?_,fun x j e₁ l hlive hne hl₁ => ?_,fun l hl₁ => ?_⟩
  · have hdir := (hx.attached G hs h).dir h.ok
    have hdir' : ((T.withChain e.getFirstCluster l').setSlot d k (e.grown n)).Dir x := (Tree.dir_withChain hf).mpr hdir
    have hnew := lists_listed G ht hw.sound hdir'
    rw [hlist.eq_listed G hs h hdir]
    rw [Tree.setSlot_slots,Tree.withChain_slots] at hnew
    split_ifs with hxd
    · subst hxd
      have hempty : (e.grown n).isEmpty = e.isEmpty := by
        rw [DirectoryEntry.isEmpty,DirectoryEntry.isEmpty,firstByte_grown]
      rwa [Function.update_self,listed_set hslot hempty] at hnew
    · rwa [Function.update_of_ne hxd] at hnew
  · obtain ⟨-,-,hch₁⟩ := hlive.stored G hs h
    rw [hl₁.eq_chain h hch₁.object]
    exact other_chain h hw hch₁.object (other_object G hs h hatt hl hc h0 hlive hne)
  · rw [G.rootCluster] at hl₁ ⊢
    rw [hl₁.eq_chain h h.ok.root.1]
    exact other_chain h hw h.ok.root.1 (Ne.symm hch.notRoot)

end Isolation

theorem grown_eq (e : DirectoryEntry) (n : Nat) :
    e.grown n = { e with fileSize := UInt32.ofNat (max e.fileSize.toNat n) } := by
  rw [DirectoryEntry.grown]
  split_ifs with hlt
  · rw [Nat.max_eq_right hlt.le]
  · rw [Nat.max_eq_left (by omega),UInt32.ofNat_toNat]

theorem fileSize_grown (e : DirectoryEntry) (h : n < 2^32) : (e.grown n).fileSize.toNat = max e.fileSize.toNat n := by
  have := e.fileSize.toNat_lt
  rw [grown_eq e n,UInt32.toNat_ofNat_of_lt' (by rw [UInt32.size]; omega)]

section Contents
variable {offset : Nat} {data : List UInt8} {l' : List Nat} (G : Geometry drv) (h : Sound drv v T) (hd : T.Dir d)
  (hl : Leads T d k e) (hf : e.isDirectory = false) (hc : e.isChild = true) (h0 : e.getFirstCluster ≠ 0)
  (hid : decodeNodeId id = (e.getFirstCluster,d,a)) (ha : isDirectory a = false)
include G h hd hl hf hc h0 hid ha

/-- The file as it reads before a write. -/
def fileBytes (v : FatView) (T : Tree) (e : DirectoryEntry) : List UInt8 :=
  (v.contents (T.chain e.getFirstCluster)).take e.fileSize.toNat

omit G hl hid ha in
theorem length_fileBytes (hmem : e ∈ T.slots d) : (fileBytes v T e).length = e.fileSize.toNat := by
  have hch := (h.ok.slot hd hmem).child hc h0
  have hsize := hch.fileSize hf
  rw [fileBytes,List.length_take,length_contents h.stored.solid (h.stored.inside _),Nat.min_eq_left hsize]

/-- The written file reads as the bytes of its chain up to its new size. -/
theorem readFile_wrote (hw : WroteFile drv T d k e offset data n v w l') (o m : Nat) :
    (onDisk drv).Runs (readFile drv id o m) w (.ok (slice ((w.contents l').take (e.grown n).fileSize.toNat) o m)) w := by
  have hch := (h.ok.slot hd (List.mem_of_getElem? hl.getElem?.1)).child hc h0
  have hfile : T.isDir e.getFirstCluster = false := hch.kind ▸ hf
  have hchain : ((T.withChain e.getFirstCluster l').setSlot d k (e.grown n)).chain e.getFirstCluster = l' := by
    rw [Tree.setSlot_chain,Tree.withChain_chain,Function.update_self]
  have hread := readFile_runs G hw.sound ((Tree.dir_withChain hfile).mpr hd) (hl.grown l' _)
    (by rwa [isDirectory_grown]) (by rwa [isChild_grown]) (by rwa [getFirstCluster_grown])
    (by rwa [getFirstCluster_grown]) ha o m
  rwa [getFirstCluster_grown,hchain] at hread

/-- Behind the write the file reads as its old bytes with the data put over them. -/
theorem readFile_written (hlt : offset + data.length < 2^32) (ho : offset ≤ e.fileSize.toNat)
    (hw : WroteFile drv T d k e offset data (offset + data.length) v w l') (m : Nat) :
    (onDisk drv).Runs (readFile drv id 0 m) w (.ok ((splice (fileBytes v T e) offset data).take m)) w := by
  have hsize := ((h.ok.slot hd (List.mem_of_getElem? hl.getElem?.1)).child hc h0).fileSize hf
  have hold := length_contents h.stored.solid (h.stored.inside e.getFirstCluster)
  obtain ⟨z,hz⟩ := hw.contents
  have hread := readFile_wrote G h hd hl hf hc h0 hid ha hw 0 m
  rw [fileSize_grown e hlt,hz,take_overwrite _ (hsize.trans hold.ge) ho] at hread
  exact hread

end Contents

/-- On every volume a run from a fresh format reaches without deleting an empty directory through a
dot entry, a write to a live file that returns Ok puts the data over the file's bytes, records the
size, and leaves everything else as it was. -/
theorem run_write_splices {ops : List FatOp} {rs : List (Except FileSystemError FatReply)} (h : Fresh p drv s)
    (hc : meets (exec drv p) (sparesDots drv) ops s = true) (hrun : runAll (exec drv p) ops s = .ok (rs,t)) {t₁ t₂ : Disk}
    (hid : findNode drv path t = .ok (.ok id,t₁)) (he : findDirentry drv path t = .ok (.ok (e,d),t₂))
    (hf : e.isDirectory = false) {offset : Nat} {data : ByteSlice} (hoff : offset ≤ e.fileSize.toNat) (hne : data.val ≠ [])
    (hlt : offset + data.val.length < 2^32) (hw : writeFile drv p id offset data t₁ = .ok (.ok n,u)) :
    n = data.val.length ∧ ∃ entries k old, Lists drv t d entries ∧ entries[k]? = some e ∧ old.length = e.fileSize.toNat ∧
      (∀ m, ∃ t', readFile drv id 0 m t = .ok (.ok (old.take m),t')) ∧
      (∀ m, ∃ u', readFile drv id 0 m u = .ok (.ok ((splice old offset data.val).take m),u')) ∧
      Isolated drv t u d k { e with fileSize := UInt32.ofNat (max e.fileSize.toNat (offset + data.val.length)) } := by
  have G := h.geometry
  obtain ⟨ht,T,ho⟩ := h.run_inOrder hc hrun
  rcases findNode_handled G ho.toSound path with ⟨err,hfind⟩ | ⟨id',e',d',hfind,hentry,hh⟩
  · exact absurd (hfind.returns ht hid).1 (by simp)
  obtain ⟨hideq,ht₁,hview₁⟩ := hfind.returns ht hid
  cases hideq
  cases (hentry.returns ht he).1
  obtain ⟨rfl,⟨rfl,rfl⟩ | ⟨part,hfound⟩⟩ := hh
  · cases hf
  have hd := hfound.attached.dir ho.ok
  have hchild := hfound.isChild_of_file ho.toSound hf
  have ha : isDirectory (e.attributes &&& 0x7F) = false := by rw [isDirectory_attributes,hf]
  have hid := hfound.decode G ho.toSound
  by_cases h0 : e.getFirstCluster = 0
  · -- a file without clusters takes no write
    have hempty : data.val.isEmpty = false := by simpa using hne
    simp only [writeFile,hempty,hid,ha,h0,Bool.false_eq_true,if_false,if_true] at hw
    cases hw
  obtain ⟨k,hl⟩ := hfound.leads ho hchild h0
  have hch := (ho.ok.slot hd hfound.mem.1).child hchild h0
  have hfile : T.isDir e.getFirstCluster = false := hch.kind ▸ hf
  have hsum : usizeAdd p offset data.val.length = .ok (offset + data.val.length) :=
    usizeAdd_of_lt p (Nat.lt_trans hlt (by decide))
  obtain ⟨r,w,l',hruns,-,hres⟩ := writeFile_runs G ho.toSound hd hl hf hchild h0 hid ha offset hne hsum
  have hview₁ : viewOf drv t₁ = viewOf drv t := hview₁
  rw [← hview₁] at hruns
  obtain ⟨hr,hu,hviewu⟩ := hruns.returns ht₁ hw
  have hviewu : viewOf drv u = w := hviewu
  rcases hres with ⟨rfl,hwrote⟩ | ⟨rfl,-⟩
  · cases hr
    rw [← hviewu] at hwrote
    refine ⟨rfl,_,k,fileBytes (viewOf drv t) T e,lists_listed G ht ho.toSound hd,hl.slot,
      length_fileBytes ho.toSound hd hf hchild h0 hfound.mem.1,fun m => ?_,fun m => ?_,?_⟩
    · obtain ⟨t',ht',-⟩ := readFile_runs G ho.toSound hd hl hf hchild h0 hid ha 0 m t ht rfl
      exact ⟨t',ht'⟩
    · obtain ⟨u',hu',-⟩ := readFile_written G ho.toSound hd hl hf hchild h0 hid ha hlt hoff hwrote m u hu rfl
      exact ⟨u',hu'⟩
    · rw [← grown_eq]
      exact hwrote.isolated G ht hu ho.toSound hfound.attached hl hchild h0 hfile
  · cases hr

/-- A write of the byte 0x41 to the file at path, as seen by a reader of the file. -/
private def writeSeen (path : List Char) (t : Disk) : Option (FileNodeHandle × DirectoryEntry × Nat × Disk × Disk × Disk × Nat × List UInt8) :=
  match findNode smallDriver path t, findDirentry smallDriver path t with
  | .ok (.ok id,t₁), .ok (.ok (e,d),t₂) =>
    match writeFile smallDriver .dev id 0 ⟨[0x41],by decide⟩ t₁ with
    | .ok (.ok n,u) =>
      match readFile smallDriver id 0 1 u with
      | .ok (.ok bytes,_) => some (id,e,d,t₁,t₂,u,n,bytes)
      | _ => none
    | _ => none
  | _, _ => none

private theorem writeSeen_eq {t t₁ t₂ u : Disk} {bytes : List UInt8}
    (h : writeSeen path t = some (id,e,d,t₁,t₂,u,n,bytes)) :
    findNode smallDriver path t = .ok (.ok id,t₁) ∧ findDirentry smallDriver path t = .ok (.ok (e,d),t₂) ∧
      writeFile smallDriver .dev id 0 ⟨[0x41],by decide⟩ t₁ = .ok (.ok n,u) ∧
      ∃ u', readFile smallDriver id 0 1 u = .ok (.ok bytes,u') := by
  rw [writeSeen] at h
  split at h
  · split at h
    · split at h
      · cases h
        exact ⟨‹_›,‹_›,‹_›,_,‹_›⟩
      · cases h
    · cases h
  · cases h

theorem run_write_splices_small : ∃ rs t id e d t₁ t₂ u n,
    runAll (exec smallDriver .dev) [.createFile ['/'] ['F']] smallVolume = .ok (rs,t) ∧
      findNode smallDriver ['F'] t = .ok (.ok id,t₁) ∧ findDirentry smallDriver ['F'] t = .ok (.ok (e,d),t₂) ∧
      writeFile smallDriver .dev id 0 ⟨[0x41],by decide⟩ t₁ = .ok (.ok n,u) ∧ n = 1 := by
  have htrace : ((runAll (exec smallDriver .dev) [.createFile ['/'] ['F']] smallVolume).toOption.map fun x =>
      (writeSeen ['F'] x.2).map fun y => y.2.1.isDirectory) = some (some false) := by decide +kernel
  have hc : meets (exec smallDriver .dev) (sparesDots smallDriver) [.createFile ['/'] ['F']] smallVolume = true := by
    refine meets_of_forall fun op hop s => ?_
    rw [List.mem_singleton.mp hop]
    rfl
  obtain ⟨rs,t,hrun,ht⟩ := runAll_of_view htrace
  obtain ⟨⟨id,e,d,t₁,t₂,u,n,bytes⟩,hseen,hdir⟩ := Option.map_eq_some_iff.mp ht
  obtain ⟨hid,he,hw,-⟩ := writeSeen_eq hseen
  have hsplice := run_write_splices (smallVolume_fresh .dev) hc hrun hid he hdir (Nat.zero_le _) (by decide) (by decide) hw
  exact ⟨rs,t,id,e,d,t₁,t₂,u,n,hrun,hid,he,hw,hsplice.1⟩

/-- After SUB was deleted through its dot entry, a file created in it gets its cluster: the file is
stored in the directory that lists it, and a byte written to it reads back as its name. -/
theorem dot_delete_loses_write : Fresh .dev smallDriver smallVolume ∧
    ∃ rs t id e d t₁ t₂ u n, runAll (exec smallDriver .dev)
        [.createDirectory ['/'] ['S','U','B'],.delete dotAlias,.createFile ['S','U','B'] ['F']] smallVolume = .ok (rs,t) ∧
      findNode smallDriver ['S','U','B','/','F'] t = .ok (.ok id,t₁) ∧
      findDirentry smallDriver ['S','U','B','/','F'] t = .ok (.ok (e,d),t₂) ∧ e.isDirectory = false ∧ e.isChild = true ∧
      writeFile smallDriver .dev id 0 ⟨[0x41],by decide⟩ t₁ = .ok (.ok n,u) ∧
      ¬ ∃ old : List UInt8, ∀ m, ∃ u', readFile smallDriver id 0 m u = .ok (.ok ((splice old 0 [0x41]).take m),u') := by
  have htrace : ((runAll (exec smallDriver .dev)
      [.createDirectory ['/'] ['S','U','B'],.delete dotAlias,.createFile ['S','U','B'] ['F']] smallVolume).toOption.map fun x =>
        (writeSeen ['S','U','B','/','F'] x.2).map fun y => (y.2.1.isDirectory,y.2.1.isChild,y.2.2.2.2.2.2.2)) =
      some (some (false,true,[0x46])) := by decide +kernel
  obtain ⟨rs,t,hrun,ht⟩ := runAll_of_view htrace
  obtain ⟨⟨id,e,d,t₁,t₂,u,n,bytes⟩,hseen,hfacts⟩ := Option.map_eq_some_iff.mp ht
  obtain ⟨hdir,hchild,hbytes⟩ : e.isDirectory = false ∧ e.isChild = true ∧ bytes = [0x46] := by simpa using hfacts
  obtain ⟨hid,he,hw,u',hread⟩ := writeSeen_eq hseen
  refine ⟨smallVolume_fresh .dev,rs,t,id,e,d,t₁,t₂,u,n,hrun,hid,he,hdir,hchild,hw,fun ⟨old,hold⟩ => ?_⟩
  obtain ⟨v',hv⟩ := hold 1
  rw [hread,hbytes] at hv
  have hsplice : (splice old 0 [0x41]).take 1 = [0x41] := by
    simp [splice,overwrite_zero]
  rw [hsplice] at hv
  cases hv

end Fat32Driver
end MofuOS.Filesystem.Fat32
