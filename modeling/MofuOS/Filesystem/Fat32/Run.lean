import MofuOS.Filesystem.Fat32.Delete
import MofuOS.Lib.Run

/-! The changing operations of the driver, each applied to a handle that find_node has just
returned, and what they keep on a volume that only this driver has written. -/
namespace MofuOS.Filesystem.Fat32
open Lib Io
open Prog (liftO)

inductive FatOp where
  | createFile (path name : List Char)
  | createDirectory (path name : List Char)
  | write (path : List Char) (offset : UInt64) (data : ByteSlice)
  | delete (path : List Char)
  deriving DecidableEq

inductive FatReply where
  | handle (id : FileNodeHandle)
  | count (n : Nat)
  | done
  deriving DecidableEq, Repr

namespace Fat32Driver

def exec (drv : Fat32Driver) (p : Profile) : FatOp → FsProg Disk FatReply
  | .createFile path name => do
    let parent ← findNode drv path
    let id ← createFile drv parent name
    pure (.handle id)
  | .createDirectory path name => do
    let parent ← findNode drv path
    let id ← createDirectory drv parent name
    pure (.handle id)
  | .write path offset data => do
    let id ← findNode drv path
    let n ← writeFile drv p id offset.toNat data
    pure (.count n)
  | .delete path => do
    let id ← findNode drv path
    let _ ← delete drv id
    pure .done

/-- A deletion does not go through a dot entry to a directory that lists nothing. -/
def sparesDots (drv : Fat32Driver) : FatOp → Disk → Bool
  | .delete path, s =>
    match findDirentry drv path s with
    | .ok (.ok (e,_),_) => e.firstByte != 0x2E ||
        match readDirectoryEntries drv e.getFirstCluster s with
        | .ok (.ok entries,_) => hasValidEntries entries
        | _ => true
    | _ => true
  | _, _ => true

variable {drv : Fat32Driver} {v w : FatView} {T : Tree} {c d k n : Nat} {e : DirectoryEntry} {id : FileNodeHandle}
  {a : UInt8} {p : Profile} {s t : Disk} {path name part : List Char}

/-- A handle keeps the clusters of an entry of the volume. -/
theorem decode_of_le (he : e.getFirstCluster ≤ maxClusterNumber) (hd : d ≤ maxClusterNumber) :
    decodeNodeId (encodeNodeId e d) = (e.getFirstCluster,d,e.attributes &&& 0x7F) := by
  rw [maxClusterNumber] at he hd
  rw [decodeNodeId_encodeNodeId,Nat.mod_eq_of_lt (by omega),Nat.mod_eq_of_lt (by omega)]

theorem isDirectory_attributes (e : DirectoryEntry) : isDirectory (e.attributes &&& 0x7F) = e.isDirectory :=
  isDirectory_masked e.attributes

section Found
variable (G : Geometry drv)
include G

theorem Found.decode (h : Found T part e d) (hs : Sound drv v T) :
    decodeNodeId (encodeNodeId e d) = (e.getFirstCluster,d,e.attributes &&& 0x7F) := by
  have hd := h.attached.dir hs.ok
  exact decode_of_le (hs.ok.slot hd h.mem.1).number (G.inVolume_le (hs.stored.start_inVolume hd.1))

omit G in
/-- A live entry that is no directory is no dot entry either. -/
theorem Found.isChild_of_file (h : Found T part e d) (hs : Sound drv v T) (hf : e.isDirectory = false) : e.isChild = true := by
  refine isChild_of_valid h.mem.2 fun hb => ?_
  have := ((hs.ok.slot (h.attached.dir hs.ok) h.mem.1).dot h.mem.2 hb).2.1
  rw [hf] at this
  cases this

omit G in
/-- On the driver's own volumes no slot in front of a live entry has its cluster. -/
theorem Own.leads (ho : Own drv v T) (hatt : T.Attached d) (hk : (listed (T.slots d))[k]? = some e) (hc : e.isChild = true)
    (h0 : e.getFirstCluster ≠ 0) : Leads T d k e := by
  have hd := hatt.dir ho.ok
  have hslot := (listed_getElem? hk).1
  have hlive : e.isDeleted = false := by
    cases hdel : e.isDeleted with
    | false => rfl
    | true =>
      rw [DirectoryEntry.isChild,DirectoryEntry.isValid,hdel,Bool.or_true] at hc
      cases hc
  refine ⟨hk,hlive,fun i e' hi he' heq => ?_⟩
  obtain ⟨hslot',hne⟩ := listed_getElem? he'
  cases hdel : e'.isDeleted with
  | true => exact h0 (ho.tidy.stale hd hslot' hslot hi hdel hc heq)
  | false =>
    have hv' : e'.isValid = true := by
      rw [DirectoryEntry.isValid,hne,hdel]
      rfl
    have := ho.ok.alone hatt hslot hslot' hc hv' heq h0
    omega

omit G in
theorem Found.leads (h : Found T part e d) (ho : Own drv v T) (hc : e.isChild = true) (h0 : e.getFirstCluster ≠ 0) :
    ∃ k, Leads T d k e := by
  obtain ⟨k,hk,-⟩ := h.slot
  exact ⟨k,ho.leads h.attached hk hc h0⟩

omit G in
/-- The directory a found entry leads to. -/
theorem Found.dir (h : Found T part e d) (ho : Own drv v T) (hdir : e.isDirectory = true) : T.Dir e.getFirstCluster := by
  rcases follow ho.ok h.attached h.mem.1 h.mem.2 hdir with hatt | h0
  · exact hatt.dir ho.ok
  · have hd := h.attached.dir ho.ok
    by_cases hb : e.firstByte = 0x2E
    · exact absurd h0 (ho.tidy.dots hd h.mem.1 h.mem.2 hb)
    · have hch := (ho.ok.slot hd h.mem.1).dirChild (isChild_of_valid h.mem.2 hb) hdir
      exact ⟨hch.object,hch.kind ▸ hdir⟩

end Found
/-- A handle as find_node returns it. -/
def Handled (T : Tree) (id : FileNodeHandle) (e : DirectoryEntry) (d : Nat) : Prop :=
  id = encodeNodeId e d ∧ ((e = .createForRoot ∧ d = 2) ∨ ∃ part, Found T part e d)

/-- A volume that only this driver has written, on its disk. -/
def InOrder (drv : Fat32Driver) (s : Disk) : Prop := Holds drv s ∧ ∃ T, Own drv (viewOf drv s) T

/-- A live slot of directory d with cluster c has been marked deleted. -/
def Marked (T T' : Tree) (d c : Nat) : Prop :=
  T'.Dir d ∧ ∃ k e, (listed (T.slots d))[k]? = some e ∧ e.getFirstCluster = c ∧ T'.slots d = (T.slots d).set k e.markDeleted

/-- A live slot k of directory d has been marked deleted, and the object behind it, with first cluster c, is gone. -/
structure Deleted (drv : Fat32Driver) (v : FatView) (T : Tree) (d c : Nat) (w : FatView) (T' : Tree) : Prop where
  dir : T'.Dir d
  slot : ∃ k e, (listed (T.slots d))[k]? = some e ∧ e.isChild = true ∧ e.getFirstCluster = c ∧
    T' = if c = 0 then T.setSlot d k e.markDeleted else (T.setSlot d k e.markDeleted).remove c
  frame : ∀ x, x ∉ T.chain d → w.data x = v.data x
  freed : ∀ x, w.fat x = if x ∈ T.chain c then 0 else v.fat x
  bare : T.Dir c → hasValidEntries (listed (T.slots c)) = false

theorem Deleted.marked {T' : Tree} (h : Deleted drv v T d c w T') : Marked T T' d c := by
  obtain ⟨k,e,hk,-,hc,htree⟩ := h.slot
  refine ⟨h.dir,k,e,hk,hc,?_⟩
  rw [htree]
  split_ifs <;> exact Function.update_self ..

/-- Slot k of directory d holds the live file e, which has clusters. -/
structure FileAt (T : Tree) (d k : Nat) (e : DirectoryEntry) : Prop extends Leads T d k e where
  dir : T.Dir d
  child : e.isChild = true
  file : e.isDirectory = false
  cluster : e.getFirstCluster ≠ 0

theorem FileAt.kind (h : FileAt T d k e) (hs : Sound drv v T) : T.isDir e.getFirstCluster = false :=
  ((hs.ok.slot h.dir (List.mem_of_getElem? h.getElem?.1)).child h.child h.cluster).kind ▸ h.file

/-- What a write to the file with entry e leaves. -/
inductive Written (drv : Fat32Driver) (p : Profile) (v : FatView) (T : Tree) (d : Nat) (e : DirectoryEntry) (offset : Nat)
    (data : List UInt8) : FatView → Tree → Prop where
  | same : Written drv p v T d e offset data v T
  | wrote {k n : Nat} {w : FatView} {l' : List Nat} (hf : FileAt T d k e) (hne : data ≠ []) (hn : usizeAdd p offset data.length = .ok n)
      (took : Took drv v (T.chain e.getFirstCluster) w l') (h : WroteFile drv T d k e offset data n v w l') :
      Written drv p v T d e offset data w ((T.withChain e.getFirstCluster l').setSlot d k (e.grown n))
  | full {k : Nat} {w : FatView} {l' : List Nat} (hf : FileAt T d k e) (hne : data ≠ [])
      (h : Put drv T e.getFirstCluster offset data v (T.chain e.getFirstCluster) w l')
      (hfull : Full drv (offset + data.length) w l') : Written drv p v T d e offset data w (T.withChain e.getFirstCluster l')

/-- What one operation makes of a volume in order. -/
inductive Change (drv : Fat32Driver) (p : Profile) (v : FatView) (T : Tree) : FatOp → FatView → Tree → Prop where
  | same {op : FatOp} : Change drv p v T op v T
  | refused {op : FatOp} {d : Nat} {err : FileSystemError} {w : FatView} {T' : Tree} (hd : T.Dir d)
      (h : Refused drv v T d err w T') : Change drv p v T op w T'
  | createdFile {path name : List Char} {id : FileNodeHandle} {d q : Nat} {a : UInt8} {e : DirectoryEntry} {w : FatView}
      {T' : Tree} (parent : (onDisk drv).Runs (findNode drv path) v (.ok id) v) (hid : decodeNodeId id = (d,q,a)) (hd : T.Dir d)
      (h : Created drv v T d name FatFileAttributes.archive e w T') : Change drv p v T (.createFile path name) w T'
  | createdDirectory {path name : List Char} {id : FileNodeHandle} {d q : Nat} {a : UInt8} {e : DirectoryEntry} {w : FatView}
      {T' : Tree} (parent : (onDisk drv).Runs (findNode drv path) v (.ok id) v) (hid : decodeNodeId id = (d,q,a)) (hd : T.Dir d)
      (h : Created drv v T d name FatFileAttributes.directory e w T') : Change drv p v T (.createDirectory path name) w T'
  | written {path : List Char} {offset : UInt64} {data : ByteSlice} {e : DirectoryEntry} {d : Nat} {w : FatView} {T' : Tree}
      (entry : (onDisk drv).Runs (findDirentry drv path) v (.ok (e,d)) v)
      (h : Written drv p v T d e offset.toNat data.val w T') : Change drv p v T (.write path offset data) w T'
  | deleted {path : List Char} {d c : Nat} {w : FatView} {T' : Tree} (hd : T.Dir d) (h : Deleted drv v T d c w T') :
      Change drv p v T (.delete path) w T'

theorem decode_root : decodeNodeId (encodeNodeId .createForRoot 2) = (2,2,FatFileAttributes.directory) := by
  decide

section Steps
variable (G : Geometry drv)
include G

/-- The directory behind the handle of a parent. -/
theorem Handled.parent (h : Handled T id e d) (ho : Own drv v T) :
    ∃ c q a, decodeNodeId id = (c,q,a) ∧ (isDirectory a = true → T.Dir c) := by
  obtain ⟨rfl,⟨rfl,rfl⟩ | ⟨part,hf⟩⟩ := h
  · exact ⟨2,2,_,decode_root,fun _ => ho.ok.root⟩
  · refine ⟨_,_,_,hf.decode G ho.toSound,fun ha => hf.dir ho ?_⟩
    rwa [isDirectory_attributes] at ha

omit G in
/-- What a finished write leaves is a volume of the driver's own. -/
theorem WroteFile.own {offset : Nat} {data : List UInt8} {l' : List Nat} (h : WroteFile drv T d k e offset data n v w l')
    (ho : Own drv v T) (hd : T.Dir d) (hl : Leads T d k e) (hc : e.isChild = true) (hf : T.isDir e.getFirstCluster = false) :
    Own drv w ((T.withChain e.getFirstCluster l').setSlot d k (e.grown n)) := by
  have hd' : (T.withChain e.getFirstCluster l').Dir d := (Tree.dir_withChain hf).mpr hd
  have hbyte : e.firstByte ≠ 0x2E := by
    intro hb
    rw [DirectoryEntry.isChild,hb,Bool.and_comm] at hc
    cases hc
  refine ⟨h.sound,(ho.tidy.withChain hf).setSlot (fun _ hb => ?_) (fun hdel => ?_) fun _ i e' hi he' hdel heq => ?_⟩
  · rw [firstByte_grown] at hb
    exact absurd hb hbyte
  · rw [DirectoryEntry.isDeleted,firstByte_grown,← DirectoryEntry.isDeleted,hl.live] at hdel
    cases hdel
  · rw [getFirstCluster_grown] at heq ⊢
    exact ho.tidy.stale hd he' hl.getElem?.1 hi hdel hc heq

/-- A write keeps the volume in order, unless the end of the data overflows and the sum panics. -/
theorem writeFile_own (ho : Own drv v T) (hh : Handled T id e d) (offset : Nat) (data : ByteSlice) :
    (∃ r w T', (onDisk drv).Runs (writeFile drv p id offset data) v r w ∧ Own drv w T' ∧
      Written drv p v T d e offset data.val w T') ∨
      ∃ f, usizeAdd p offset data.val.length = .error f ∧
        ∀ s, Holds drv s → viewOf drv s = v → writeFile drv p id offset data s = .error f := by
  by_cases hne : data.val = []
  · have hempty : data.val.isEmpty = true := by simpa using hne
    rw [writeFile,if_pos hempty]
    exact .inl ⟨_,v,T,.pure 0 v,ho,.same⟩
  have hempty : data.val.isEmpty = false := by simpa using hne
  obtain ⟨rfl,⟨rfl,rfl⟩ | ⟨part,hf⟩⟩ := hh
  · have hroot : isDirectory FatFileAttributes.directory = true := rfl
    simp only [writeFile,hempty,decode_root,hroot,Bool.false_eq_true,if_false,if_true]
    exact .inl ⟨_,v,T,.fail _ v,ho,.same⟩
  · have hid := hf.decode G ho.toSound
    cases hdir : e.isDirectory with
    | true =>
      simp only [writeFile,hempty,hid,isDirectory_attributes,hdir,Bool.false_eq_true,if_false,if_true]
      exact .inl ⟨_,v,T,.fail _ v,ho,.same⟩
    | false =>
      have hc := hf.isChild_of_file ho.toSound hdir
      have hd := hf.attached.dir ho.ok
      by_cases h0 : e.getFirstCluster = 0
      · simp only [writeFile,hempty,hid,isDirectory_attributes,hdir,Bool.false_eq_true,if_false,h0,if_true]
        exact .inl ⟨_,v,T,.fail _ v,ho,.same⟩
      · obtain ⟨k,hl⟩ := hf.leads ho hc h0
        have hat : FileAt T d k e := ⟨hl,hd,hc,hdir,h0⟩
        have hch := (ho.ok.slot hd hf.mem.1).child hc h0
        have hfile : T.isDir e.getFirstCluster = false := hch.kind ▸ hdir
        have ha : isDirectory (e.attributes &&& 0x7F) = false := by rw [isDirectory_attributes,hdir]
        cases hn : usizeAdd p offset data.val.length with
        | error f =>
          refine .inr ⟨f,rfl,fun s hs hv => ?_⟩
          obtain ⟨u,hu,-⟩ := findEntryByCluster_runs G ho.toSound hd hl s hs hv
          simp only [writeFile,hempty,hid,ha,Bool.false_eq_true,if_false,if_neg h0]
          rw [Prog.run_bind_ok hu,hn]
          exact Prog.run_bind_fault rfl
        | ok n =>
          obtain ⟨r,w,l',hrun,htook,⟨-,hw⟩ | ⟨-,hput,hfull⟩⟩ := writeFile_runs G ho.toSound hd hl hdir hc h0 hid ha offset hne hn
          · exact .inl ⟨r,w,_,hrun,hw.own ho hd hl hc hfile,.wrote hat hne hn htook hw⟩
          · exact .inl ⟨r,w,_,hrun,⟨hput.sound,ho.tidy.withChain hfile⟩,.full hat hne hput hfull⟩

omit G in
/-- The deletion finds the live slots with the cluster of the handle. -/
theorem found_findIdx (hf : Found T part e d) :
    ∃ k e', ((listed (T.slots d)).findIdx? fun x => !x.isDeleted && x.getFirstCluster == e.getFirstCluster) = some k ∧
      (listed (T.slots d))[k]? = some e' ∧ e'.getFirstCluster = e.getFirstCluster ∧ e'.isValid = true := by
  obtain ⟨i,hi,-,hv⟩ := hf.slot
  have hlive : e.isDeleted = false := by
    rw [DirectoryEntry.isValid,Bool.not_eq_true',Bool.or_eq_false_iff] at hv
    exact hv.2
  cases hfind : (listed (T.slots d)).findIdx? fun x => !x.isDeleted && x.getFirstCluster == e.getFirstCluster with
  | none =>
    have := List.findIdx?_eq_none_iff.mp hfind e (List.mem_of_getElem? hi)
    simp [hlive] at this
  | some k =>
    obtain ⟨hk,hp,-⟩ := List.findIdx?_eq_some_iff_getElem.mp hfind
    rw [Bool.and_eq_true,Bool.not_eq_true',beq_iff_eq] at hp
    have he' := List.getElem?_eq_getElem hk
    refine ⟨k,_,rfl,he',hp.2,?_⟩
    rw [DirectoryEntry.isValid,(listed_getElem? he').2,hp.1]
    rfl

/-- The root is in no directory, so it is not found. -/
private theorem delete_root_runs (ho : Own drv v T) :
    (onDisk drv).Runs (delete drv (encodeNodeId .createForRoot 2)) v (.error .notFound) v := by
  have hnone : ((listed (T.slots 2)).findIdx? fun x => !x.isDeleted && x.getFirstCluster == 2) = none := by
    refine List.findIdx?_eq_none_iff.mpr fun x hx => ?_
    by_contra hp
    rw [Bool.not_eq_false,Bool.and_eq_true,Bool.not_eq_true',beq_iff_eq] at hp
    obtain ⟨i,hi⟩ := List.getElem?_of_mem hx
    obtain ⟨hslot,hne⟩ := listed_getElem? hi
    have hv : x.isValid = true := by
      rw [DirectoryEntry.isValid,hne,hp.1]
      rfl
    have hok := ho.ok.slot ho.ok.root (List.mem_of_getElem? hslot)
    by_cases hb : x.firstByte = 0x2E
    · exact (hok.dot hv hb).1 rfl
    · exact (hok.child (isChild_of_valid hv hb) (by rw [hp.2]; decide)).notRoot hp.2
  rw [delete,decode_root]
  refine (ho.readDirectoryEntries_runs G ho.ok.root).bind ?_
  simp only [hnone]
  exact .fail _ v

/-- A deletion either changes nothing or takes a live slot with the cluster of the handle away. -/
theorem delete_own (ho : Own drv v T) (hh : Handled T id e d)
    (hdots : e.firstByte = 0x2E → T.Dir e.getFirstCluster → hasValidEntries (listed (T.slots e.getFirstCluster)) = true) :
    (∃ err, (onDisk drv).Runs (delete drv id) v (.error err) v) ∨
      ∃ w T', (onDisk drv).Runs (delete drv id) v (.ok ()) w ∧ Own drv w T' ∧ T.Dir d ∧
        Deleted drv v T d e.getFirstCluster w T' := by
  obtain ⟨rfl,⟨rfl,rfl⟩ | ⟨part,hf⟩⟩ := hh
  · exact .inl ⟨_,delete_root_runs G ho⟩
  · have hid := hf.decode G ho.toSound
    have hd := hf.attached.dir ho.ok
    have hok := ho.ok.slot hd hf.mem.1
    obtain ⟨k,e',hk,he',hcl,hv'⟩ := found_findIdx hf
    have hslot' := (listed_getElem? he').1
    have hok' := ho.ok.slot hd (List.mem_of_getElem? hslot')
    by_cases hb : e.firstByte = 0x2E
    · -- through a dot entry only a directory that lists entries is reached, which is kept
      have hdir := (hok.dot hf.mem.2 hb).2.1
      have hcdir := hf.dir ho hdir
      have hval := hdots hb hcdir
      have ha : isDirectory (e.attributes &&& 0x7F) = T.isDir e.getFirstCluster := by
        rw [isDirectory_attributes,hdir,hcdir.2]
      rcases freeContents_runs G ho.toSound hcdir.1 ha with ⟨-,-,hrun⟩ | ⟨hno,-⟩
      · exact .inl ⟨_,delete_of_slot G ho.toSound hd hid hk he' hrun.bind_error⟩
      · exact absurd ⟨hcdir.2,hval⟩ hno
    · have hc := isChild_of_valid hf.mem.2 hb
      by_cases h0 : e.getFirstCluster = 0
      · have hb' : e'.firstByte ≠ 0x2E := fun hb' =>
          ho.tidy.dots hd (List.mem_of_getElem? hslot') hv' hb' (hcl.trans h0)
        have hc' := isChild_of_valid hv' hb'
        rw [h0] at hid hk
        obtain ⟨w,hrun,hst,hfat,hdata⟩ := delete_zero_runs G ho.toSound hd hid hk he'
        have hnone : T.chain e.getFirstCluster = [] := by
          by_contra hne
          have := (inVolume_iff.mp (ho.stored.start_inVolume hne)).1
          omega
        refine .inr ⟨w,_,hrun,⟨⟨hst,ho.ok.markDeleted hd hslot'⟩,ho.tidy.markDeleted ho.ok hd hslot' hc'⟩,hd,?_⟩
        refine ⟨hd,⟨k,e',he',hc',hcl,(if_pos h0).symm⟩,hdata,fun x => ?_,fun hdir => absurd hnone hdir.1⟩
        rw [hnone,if_neg List.not_mem_nil,hfat]
      · obtain ⟨i,-,hi,-⟩ := hf.slot
        have hik := ho.ok.alone hf.attached hi hslot' hc hv' hcl h0
        subst hik
        rw [hi] at hslot'
        obtain rfl := Option.some.inj hslot'
        have hch := hok.child hc h0
        have ha : isDirectory (e.attributes &&& 0x7F) = T.isDir e.getFirstCluster := by
          rw [isDirectory_attributes,hch.kind]
        have hdc : d ≠ e.getFirstCluster := by
          intro hdc
          have := hch.depth
          rw [← hdc] at this
          omega
        rcases delete_runs G ho.toSound hd hid hk he' hch.object ha hdc with ⟨-,-,hrun⟩ | ⟨hno,w,hrun,hst,hzero,hkept,hdata⟩
        · exact .inl ⟨_,hrun⟩
        · refine .inr ⟨w,_,hrun,⟨⟨hst,ho.ok.delete hd hi hc h0⟩,(ho.tidy.markDeleted ho.ok hd hi hc).remove⟩,hd,?_⟩
          refine ⟨⟨?_,hd.2⟩,⟨_,e,he',hc,rfl,(if_neg h0).symm⟩,hdata,fun x => ?_,fun hdir => ?_⟩
          · rw [Tree.remove_chain,Function.update_of_ne hdc]
            exact hd.1
          · split_ifs with hx
            · exact hzero x hx
            · exact hkept x hx
          · exact Bool.eq_false_iff.mpr fun hval => hno ⟨hdir.2,hval⟩

/-- The handle find_node returns, or its error; the volume stays as it is. -/
theorem findNode_handled (ho : Sound drv v T) (path : List Char) :
    (∃ err, (onDisk drv).Runs (findNode drv path) v (.error err) v) ∨
      ∃ id e d, (onDisk drv).Runs (findNode drv path) v (.ok id) v ∧
        (onDisk drv).Runs (findDirentry drv path) v (.ok (e,d)) v ∧ Handled T id e d := by
  have hrun := findNode_runs G ho path
  have hentry := findDirentry_runs G ho path
  cases hres : T.resolve path with
  | error err =>
    rw [hres] at hrun
    exact .inl ⟨err,hrun⟩
  | ok x =>
    rw [hres] at hrun hentry
    exact .inr ⟨_,x.1,x.2,hrun,hentry,rfl,(resolve_found ho hres).imp_right fun ⟨part,_,hf⟩ => ⟨part,hf⟩⟩

/-- Every operation returns and makes one of the changes above, unless it is a write whose end overflows,
which panics. -/
theorem exec_change (hs : Holds drv s) (ho : Own drv (viewOf drv s) T) {op : FatOp} (hop : sparesDots drv op s = true) :
    (∃ r t T', exec drv p op s = .ok (r,t) ∧ Holds drv t ∧ Own drv (viewOf drv t) T' ∧
      Change drv p (viewOf drv s) T op (viewOf drv t) T') ∨
      ∃ path offset data f, op = .write path offset data ∧ usizeAdd p offset.toNat data.val.length = .error f ∧
        exec drv p op s = .error f := by
  have done : ∀ {r w T'}, (onDisk drv).Runs (exec drv p op) (viewOf drv s) r w → Own drv w T' →
      Change drv p (viewOf drv s) T op w T' → ∃ r t T', exec drv p op s = .ok (r,t) ∧ Holds drv t ∧
        Own drv (viewOf drv t) T' ∧ Change drv p (viewOf drv s) T op (viewOf drv t) T' := by
    intro r w T' hrun ho' hch
    obtain ⟨t,ht,hgood,hview⟩ := hrun s hs rfl
    have hview : viewOf drv t = w := hview
    exact ⟨r,t,T',ht,hgood,hview ▸ ho',hview ▸ hch⟩
  cases op with
  | createFile path name =>
    rcases findNode_handled G ho.toSound path with ⟨err,hfind⟩ | ⟨id,e,d,hfind,-,hh⟩
    · exact .inl (done hfind.bind_error ho .same)
    · obtain ⟨c,q,a,hid,hd⟩ := hh.parent G ho
      cases ha : isDirectory a with
      | false =>
        have hrun : (onDisk drv).Runs (createFile drv id name) (viewOf drv s) (.error .notDirectory) (viewOf drv s) := by
          simp only [createFile,hid,ha,Bool.not_false,if_true]
          exact .fail _ _
        exact .inl (done (hfind.bind hrun.bind_error) ho .same)
      | true =>
        obtain ⟨r,w,T',hrun,hres⟩ := createFile_runs G ho hid hd name
        have hch : Change drv p (viewOf drv s) T (.createFile path name) w T' := by
          rcases hres.refused_or_created with ⟨err,h⟩ | ⟨e,h⟩
          · exact .refused (hd ha) h
          · exact .createdFile hfind hid (hd ha) h
        cases r with
        | error err => exact .inl (done (hfind.bind hrun.bind_error) hres.own hch)
        | ok new => exact .inl (done (hfind.bind (hrun.bind (.pure _ w))) hres.own hch)
  | createDirectory path name =>
    rcases findNode_handled G ho.toSound path with ⟨err,hfind⟩ | ⟨id,e,d,hfind,-,hh⟩
    · exact .inl (done hfind.bind_error ho .same)
    · obtain ⟨c,q,a,hid,hd⟩ := hh.parent G ho
      cases ha : isDirectory a with
      | false =>
        have hrun : (onDisk drv).Runs (createDirectory drv id name) (viewOf drv s) (.error .notDirectory) (viewOf drv s) := by
          simp only [createDirectory,hid,ha,Bool.not_false,if_true]
          exact .fail _ _
        exact .inl (done (hfind.bind hrun.bind_error) ho .same)
      | true =>
        obtain ⟨r,w,T',hrun,hres⟩ := createDirectory_runs G ho hid hd name
        have hch : Change drv p (viewOf drv s) T (.createDirectory path name) w T' := by
          rcases hres.refused_or_created with ⟨err,h⟩ | ⟨e,h⟩
          · exact .refused (hd ha) h
          · exact .createdDirectory hfind hid (hd ha) h
        cases r with
        | error err => exact .inl (done (hfind.bind hrun.bind_error) hres.own hch)
        | ok new => exact .inl (done (hfind.bind (hrun.bind (.pure _ w))) hres.own hch)
  | write path offset data =>
    rcases findNode_handled G ho.toSound path with ⟨err,hfind⟩ | ⟨id,e,d,hfind,hentry,hh⟩
    · exact .inl (done hfind.bind_error ho .same)
    · rcases writeFile_own G ho hh offset.toNat data with ⟨r,w,T',hrun,ho',hw⟩ | ⟨f,hf,hfault⟩
      · cases r with
        | error err => exact .inl (done (hfind.bind hrun.bind_error) ho' (.written hentry hw))
        | ok n => exact .inl (done (hfind.bind (hrun.bind (.pure _ w))) ho' (.written hentry hw))
      · obtain ⟨t,ht,hgood,hview⟩ := hfind s hs rfl
        refine .inr ⟨path,offset,data,f,rfl,hf,?_⟩
        rw [exec,Prog.run_bind_ok ht]
        exact Prog.run_bind_fault (hfault t hgood hview)
  | delete path =>
    rcases findNode_handled G ho.toSound path with ⟨err,hfind⟩ | ⟨id,e,d,hfind,hentry,hh⟩
    · exact .inl (done hfind.bind_error ho .same)
    · have hdots : e.firstByte = 0x2E → T.Dir e.getFirstCluster →
          hasValidEntries (listed (T.slots e.getFirstCluster)) = true := by
        intro hb hdir
        obtain ⟨_,hfd,-⟩ := hentry s hs rfl
        obtain ⟨_,hread,-⟩ := ho.readDirectoryEntries_runs G hdir s hs rfl
        simpa [sparesDots,hfd,hread,hb] using hop
      rcases delete_own G ho hh hdots with ⟨err,hrun⟩ | ⟨w,T',hrun,ho',hd,hdel⟩
      · exact .inl (done (hfind.bind hrun.bind_error) ho .same)
      · exact .inl (done (hfind.bind (hrun.bind (.pure _ w))) ho' (.deleted hd hdel))

/-- Every operation returns and leaves the volume in order, unless it is a write whose end
overflows, which panics. -/
theorem exec_inOrder (h : InOrder drv s) {op : FatOp} (hop : sparesDots drv op s = true) :
    (∃ r t, exec drv p op s = .ok (r,t) ∧ InOrder drv t) ∨
      ∃ path offset data f, op = .write path offset data ∧ usizeAdd p offset.toNat data.val.length = .error f ∧
        exec drv p op s = .error f := by
  obtain ⟨hs,T,ho⟩ := h
  refine (exec_change G hs ho hop).imp_left ?_
  rintro ⟨r,t,T',hx,ht,ho',-⟩
  exact ⟨r,t,hx,ht,T',ho'⟩

end Steps
end Fat32Driver
end MofuOS.Filesystem.Fat32
