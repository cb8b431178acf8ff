import MofuOS.Filesystem.Fat32.Leaks
import MofuOS.Filesystem.Fat32.Gaps
import MofuOS.Filesystem.Fat32.ReadAfterWrite

/-! A file through a run. Whatever else the volume is asked for, the file keeps its slot and its handle, and reads
as the bytes that the writes to it have left. -/
namespace MofuOS.Filesystem.Fat32
open Lib Io

namespace Fat32Driver
variable {drv : Fat32Driver} {p : Profile} {s t u : Disk} {v w : FatView} {T T' : Tree} {c d k n q x : Nat}
  {e e' : DirectoryEntry} {id : FileNodeHandle} {name path : List Char} {attrs a : UInt8} {b : List UInt8}

/-- The path leads to an entry with first cluster c. -/
def leadsTo (drv : Fat32Driver) (c : Nat) (path : List Char) (s : Disk) : Bool :=
  match findDirentry drv path s with
  | .ok (.ok (e,_),_) => e.getFirstCluster == c
  | _ => false

/-- The bytes that a write answered with r leaves of the bytes b. One that ran out of space has put its data over the
old bytes, and the file is no longer for it. -/
def bytesWritten (b : List UInt8) (offset : UInt64) (data : ByteSlice) : Except FileSystemError FatReply → List UInt8
  | .ok _ => splice b offset.toNat data.val
  | .error .noSpace => (splice b offset.toNat data.val).take b.length
  | .error _ => b

/-- The bytes that an operation answered with r leaves in the file with first cluster c, which had the bytes b. -/
def bytesAfter (drv : Fat32Driver) (c : Nat) (s : Disk) (b : List UInt8) (r : Except FileSystemError FatReply) : FatOp → List UInt8
  | .write path offset data => if leadsTo drv c path s then bytesWritten b offset data r else b
  | _ => b

/-- The bytes after a run. -/
def bytesAfterAll (drv : Fat32Driver) (p : Profile) (c : Nat) : List FatOp → Disk → List UInt8 → List UInt8
  | [],_,b => b
  | op :: ops,s,b =>
    match exec drv p op s with
    | .ok (r,t) => bytesAfterAll drv p c ops t (bytesAfter drv c s b r op)
    | .error _ => b

/-- The file with first cluster c is not deleted, and a write to it starts no further than its end and ends below 2^32. -/
def sparesFile (drv : Fat32Driver) (c : Nat) : FatOp → Disk → Bool
  | .write path offset data,s =>
    match findDirentry drv path s with
    | .ok (.ok (e,_),_) => e.getFirstCluster != c ||
        (decide (offset.toNat ≤ e.fileSize.toNat) && decide (offset.toNat + data.val.length < 2^32))
    | _ => true
  | .delete path,s => !leadsTo drv c path s
  | _,_ => true

theorem fileBytes_congr (hchain : T'.chain e.getFirstCluster = T.chain e.getFirstCluster)
    (hdata : ∀ y ∈ T.chain e.getFirstCluster, w.data y = v.data y) : fileBytes w T' e = fileBytes v T e := by
  rw [fileBytes,fileBytes,hchain,FatView.contents_congr hdata]

namespace FileAt

theorem object (hf : FileAt T d k e) (hs : Sound drv v T) : T.chain e.getFirstCluster ≠ [] :=
  ((hs.ok.slot hf.dir (List.mem_of_getElem? hf.getElem?.1)).child hf.child hf.cluster).object

theorem ne_dir (hf : FileAt T d k e) (hs : Sound drv v T) (hq : T.Dir q) : e.getFirstCluster ≠ q := by
  intro heq
  have hkind := hf.kind hs
  rw [heq,hq.2] at hkind
  cases hkind

/-- Two live files with one cluster are in one slot. -/
theorem same (hf : FileAt T d k e) (hf' : FileAt T q n e') (hs : Sound drv v T) (heq : e.getFirstCluster = e'.getFirstCluster) :
    d = q ∧ k = n ∧ e = e' := by
  have hch := (hs.ok.slot hf.dir (List.mem_of_getElem? hf.getElem?.1)).child hf.child hf.cluster
  have hch' := (hs.ok.slot hf'.dir (List.mem_of_getElem? hf'.getElem?.1)).child hf'.child hf'.cluster
  obtain rfl : d = q := by rw [← hch.parent,heq,hch'.parent]
  obtain rfl := hs.ok.unique hf.dir hf.getElem?.1 hf'.getElem?.1 hf.child hf'.child heq hf.cluster
  exact ⟨rfl,rfl,Option.some.inj (hf.getElem?.1.symm.trans hf'.getElem?.1)⟩

/-- The listing of its directory has at most grown behind it. -/
theorem of_prefix (hf : FileAt T d k e) (hd : T'.Dir d) (h : listed (T.slots d) <+: listed (T'.slots d)) : FileAt T' d k e := by
  obtain ⟨rest,hrest⟩ := h
  have hk := (List.getElem?_eq_some_iff.mp hf.slot).1
  refine ⟨⟨?_,hf.live,fun i x hi hx => ?_⟩,hd,hf.child,hf.file,hf.cluster⟩
  · rw [← hrest,List.getElem?_append_left hk]
    exact hf.slot
  · rw [← hrest,List.getElem?_append_left (Nat.lt_trans hi hk)] at hx
    exact hf.first i x hi hx

/-- Another slot of the listing of its directory is rewritten. -/
theorem of_set (hf : FileAt T d k e) (hd : T'.Dir d) (h : listed (T'.slots d) = (listed (T.slots d)).set n e') (hn : n ≠ k)
    (he : e'.getFirstCluster ≠ e.getFirstCluster) : FileAt T' d k e := by
  refine ⟨⟨?_,hf.live,fun i x hi hx => ?_⟩,hd,hf.child,hf.file,hf.cluster⟩
  · rw [h,List.getElem?_set_ne hn]
    exact hf.slot
  · rw [h,List.getElem?_set] at hx
    split_ifs at hx
    · cases hx
      exact he
    · exact hf.first i x hi hx

end FileAt

/-- The live file in slot k of directory d is there as before. -/
def FileKept (v : FatView) (T : Tree) (d k : Nat) (e : DirectoryEntry) (w : FatView) (T' : Tree) : Prop :=
  FileAt T' d k e ∧ fileBytes w T' e = fileBytes v T e

section Kept
variable (hf : FileAt T d k e)
include hf

theorem Expanded.fileKept (hs : Sound drv v T) (hq : T.Dir q) (hx : Expanded drv v T q w T') : FileKept v T d k e w T' := by
  obtain ⟨x,rfl,hfree,-,hframe⟩ := hx.tree
  have hx0 := (mem_freeClusters.mp (hfree ▸ List.mem_cons_self)).2
  have hdir : (T.grow q x (unusedSlots drv)).Dir d := ⟨(Tree.grow_extends T q x _ d hf.dir.1).1,hf.dir.2⟩
  have hlist : listed ((T.grow q x (unusedSlots drv)).slots d) = listed (T.slots d) := by
    rw [Tree.grow_slots]
    by_cases hdq : d = q
    · subst hdq
      rw [Function.update_self,unusedSlots,listed_append_unused]
    · rw [Function.update_of_ne hdq]
  refine ⟨hf.of_prefix hdir (by rw [hlist]),fileBytes_congr (by rw [Tree.grow_chain,Function.update_of_ne (hf.ne_dir hs hq)]) ?_⟩
  exact fun y hy => hframe y fun hyx => hs.stored.free_unowned hx0 _ (hyx ▸ hy)

theorem Created.fileKept (ho : Own drv v T) (hq : T.Dir q) (hc : Created drv v T q name attrs e' w T')
    (hlive : e'.isEmpty = false) : FileKept v T d k e w T' := by
  obtain ⟨n,u,T₁,hclaim,hfree,rfl,hframe,-⟩ := hc.place
  have hs₁ := hclaim.own.toSound
  have hx0 := (mem_freeClusters.mp (hfree ▸ List.mem_cons_self)).2
  have hno := hs₁.stored.free_no_object hx0
  obtain ⟨hf₁,hbytes⟩ : FileKept v T d k e u T₁ := by
    rcases hclaim.how with ⟨rfl,rfl,-⟩ | ⟨-,-,hexp⟩
    · exact ⟨hf,rfl⟩
    · exact hexp.fileKept hf ho.toSound hq
  have hne : e.getFirstCluster ≠ e'.getFirstCluster := fun heq => hf₁.object hs₁ ((congrArg T₁.chain heq).trans hno)
  have hdx : d ≠ e'.getFirstCluster := fun heq => hf₁.dir.1 ((congrArg T₁.chain heq).trans hno)
  have hqx : q ≠ e'.getFirstCluster := fun heq => (hclaim.dir hq).1 ((congrArg T₁.chain heq).trans hno)
  refine ⟨?_,?_⟩
  · have hdir : ((T₁.add e'.getFirstCluster e'.isDirectory q (newSlots drv e'.isDirectory e'.getFirstCluster q)).setSlot q n e').Dir d := by
      refine ⟨?_,?_⟩
      · rw [Tree.setSlot_chain,Tree.add_chain,Function.update_of_ne hdx]
        exact hf₁.dir.1
      · rw [Tree.setSlot_isDir,Tree.add_isDir,Function.update_of_ne hdx]
        exact hf₁.dir.2
    have hslots : ((T₁.add e'.getFirstCluster e'.isDirectory q (newSlots drv e'.isDirectory e'.getFirstCluster q)).setSlot q n e').slots d =
        if d = q then (T₁.slots d).set n e' else T₁.slots d := by
      rw [Tree.setSlot_slots,Tree.add_slots]
      split_ifs with hdq
      · rw [hdq,Function.update_self,Function.update_of_ne hqx]
      · rw [Function.update_of_ne hdq,Function.update_of_ne hdx]
    by_cases hdq : d = q
    · subst hdq
      rw [if_pos rfl] at hslots
      rcases hclaim.how with ⟨rfl,-,y,hy,hinvalid⟩ | ⟨-,hn,hexp⟩
      · obtain ⟨hslot,hused⟩ := listed_getElem? hy
        refine hf₁.of_set hdir (by rw [hslots,listed_set hslot (hlive.trans hused.symm)]) (fun hnk => ?_) hne.symm
        rw [hnk,hf₁.slot] at hy
        cases hy
        rw [hf₁.getElem?.2] at hinvalid
        cases hinvalid
      · obtain ⟨z,rfl,-⟩ := hexp.tree
        have hsame : listed ((T.grow d z (unusedSlots drv)).slots d) = listed (T.slots d) := by
          rw [Tree.grow_slots,Function.update_self,unusedSlots,listed_append_unused]
        obtain ⟨rest,hrest⟩ := listed_set_end (hsame ▸ hn) hclaim.inside hlive
        exact hf₁.of_prefix hdir ⟨e' :: rest,by rw [hslots,hrest]⟩
    · rw [if_neg hdq] at hslots
      exact hf₁.of_prefix hdir (by rw [hslots])
  · rw [← hbytes]
    refine fileBytes_congr (by rw [Tree.setSlot_chain,Tree.add_chain,Function.update_of_ne hne]) fun y hy => ?_
    refine hframe y (hs₁.file_apart (hf₁.kind hs₁) (hclaim.dir hq) hy) fun hyx => ?_
    exact hs₁.stored.free_unowned hx0 _ (hyx ▸ hy)

theorem Deleted.fileKept (hs : Sound drv v T) (hq : T.Dir q) (hx : Deleted drv v T q c w T') (hne : c ≠ e.getFirstCluster) :
    FileKept v T d k e w T' := by
  obtain ⟨n,x,hn,-,hcl,htree⟩ := hx.slot
  have hdc : d ≠ c := by
    rintro rfl
    have hbare := List.any_eq_false.mp (hx.bare hf.dir) e (List.mem_of_getElem? hf.slot)
    exact hbare hf.child
  have hslots : T'.slots = (T.setSlot q n x.markDeleted).slots := by
    rw [htree]
    split_ifs <;> rfl
  have hchain : ∀ o, o ≠ c → T'.chain o = T.chain o := by
    intro o hoc
    rw [htree]
    split_ifs
    · rfl
    · rw [Tree.remove_chain,Function.update_of_ne hoc]
      rfl
  have hkind : T'.isDir = T.isDir := by
    rw [htree]
    split_ifs <;> rfl
  have hdir : T'.Dir d := ⟨by rw [hchain d hdc]; exact hf.dir.1,by rw [hkind]; exact hf.dir.2⟩
  refine ⟨?_,fileBytes_congr (hchain _ hne.symm) fun y hy => hx.frame y (hs.file_apart (hf.kind hs) hq hy)⟩
  by_cases hdq : d = q
  · subst hdq
    obtain ⟨hslot,hused⟩ := listed_getElem? hn
    have hset : listed (T'.slots d) = (listed (T.slots d)).set n x.markDeleted := by
      rw [hslots,Tree.setSlot_slots,Function.update_self]
      exact listed_set hslot hused.symm
    have hnk : n ≠ k := by
      intro hnk
      rw [hnk,hf.slot] at hn
      cases hn
      exact hne hcl.symm
    exact hf.of_set hdir hset hnk (by rwa [DirectoryEntry.getFirstCluster_markDeleted,hcl])
  · refine hf.of_prefix hdir ?_
    rw [hslots,Tree.setSlot_slots,Function.update_of_ne hdq]

end Kept

/-- The chain of another object is apart from the one that a write has left. -/
theorem Sound.apart_withChain {l' : List Nat} {o : Nat} (hw : Sound drv w T') (hchain : T'.chain = Function.update T.chain c l')
    (hne : o ≠ c) {y : Nat} (hy : y ∈ T.chain o) : y ∉ l' := by
  intro hyl
  refine hne (hw.stored.forest.disjoint o c y ?_ ?_)
  · rwa [hchain,Function.update_of_ne hne]
  · rwa [hchain,Function.update_self]

/-- A write to another file. -/
theorem Written.fileKept {offset : Nat} {data : List UInt8} (hf : FileAt T d k e) (hs : Sound drv v T)
    (hw : Written drv p v T q e' offset data w T') (hne : e.getFirstCluster ≠ e'.getFirstCluster) : FileKept v T d k e w T' := by
  have hdir : ∀ {n l'}, FileAt T q n e' → (T.withChain e'.getFirstCluster l').Dir d := fun hf' =>
    (Tree.dir_withChain (hf'.kind hs)).mpr hf.dir
  cases hw with
  | same => exact ⟨hf,rfl⟩
  | full hf' _ hput _ =>
    refine ⟨hf.of_prefix (hdir hf') (List.prefix_refl _),fileBytes_congr ?_ fun y hy => hput.frame y ?_⟩
    · rw [Tree.withChain_chain,Function.update_of_ne hne]
    · exact hput.sound.apart_withChain (T := T) (Tree.withChain_chain ..) hne hy
  | @wrote n m w l' hf' _ _ _ hw =>
    have hchain : ((T.withChain e'.getFirstCluster l').setSlot q n (e'.grown m)).chain =
        Function.update T.chain e'.getFirstCluster l' := by rw [Tree.setSlot_chain,Tree.withChain_chain]
    refine ⟨?_,fileBytes_congr (by rw [hchain,Function.update_of_ne hne]) fun y hy => ?_⟩
    · by_cases hdq : d = q
      · subst hdq
        have hempty : (e'.grown m).isEmpty = e'.isEmpty := by
          rw [DirectoryEntry.isEmpty,DirectoryEntry.isEmpty,firstByte_grown]
        have hset : listed (((T.withChain e'.getFirstCluster l').setSlot d n (e'.grown m)).slots d) =
            (listed (T.slots d)).set n (e'.grown m) := by
          rw [Tree.setSlot_slots,Function.update_self,Tree.withChain_slots]
          exact listed_set hf'.getElem?.1 hempty
        have hnk : n ≠ k := by
          intro hnk
          have hslot := hf'.slot
          rw [hnk,hf.slot] at hslot
          cases hslot
          exact hne rfl
        exact hf.of_set (hdir hf') hset hnk (by rw [getFirstCluster_grown]; exact hne.symm)
      · refine hf.of_prefix (hdir hf') ?_
        rw [Tree.setSlot_slots,Function.update_of_ne hdq,Tree.withChain_slots]
    · exact hw.frame y (hw.sound.apart_withChain hchain hne hy) (hs.file_apart (hf.kind hs) hf'.dir hy)

/-- What is in the place of a file: its entry, but for the size, and its bytes. -/
structure FileHas (drv : Fat32Driver) (s : Disk) (T : Tree) (d k : Nat) (e : DirectoryEntry) (b : List UInt8) : Prop extends
    FileAt T d k e where
  bytes : fileBytes (viewOf drv s) T e = b

/-- The entry has at most got another size. -/
def Resized (e e' : DirectoryEntry) : Prop := ∃ n, e' = { e with fileSize := n }

theorem Resized.trans {e'' : DirectoryEntry} (h : Resized e e') (h' : Resized e' e'') : Resized e e'' := by
  obtain ⟨n,rfl⟩ := h
  obtain ⟨m,rfl⟩ := h'
  exact ⟨m,rfl⟩

section Steps
variable (G : Geometry drv) {b : List UInt8} {offset : UInt64} {data : ByteSlice}
include G

/-- The path leads nowhere, or to an entry that the handle names. -/
private theorem path_handled (ho : Sound drv v T) (path : List Char) :
    (∃ err, (onDisk drv).Runs (findNode drv path) v (.error err) v ∧ (onDisk drv).Runs (findDirentry drv path) v (.error err) v) ∨
      ∃ id e d, (onDisk drv).Runs (findNode drv path) v (.ok id) v ∧
        (onDisk drv).Runs (findDirentry drv path) v (.ok (e,d)) v ∧ Handled T id e d := by
  rcases findNode_handled G ho path with ⟨err,hrun⟩ | hfound
  · have hentry := findDirentry_runs G ho path
    cases hres : T.resolve path with
    | error err' =>
      have hrun := findNode_runs G ho path
      rw [hres] at hrun hentry
      exact .inl ⟨err',hrun,hentry⟩
    | ok x =>
      have hrun := findNode_runs G ho path
      rw [hres] at hrun hentry
      exact .inr ⟨_,x.1,x.2,hrun,hentry,rfl,(resolve_found ho hres).imp_right fun ⟨part,_,hf⟩ => ⟨part,hf⟩⟩
  · exact .inr hfound

omit G in
theorem leadsTo_ok (hs : Holds drv s) (hentry : (onDisk drv).Runs (findDirentry drv path) (viewOf drv s) (.ok (e,d)) w) :
    leadsTo drv c path s = (e.getFirstCluster == c) := by
  obtain ⟨_,hfd,-⟩ := hentry s hs rfl
  rw [leadsTo,hfd]

omit G in
theorem leadsTo_error {err : FileSystemError} (hs : Holds drv s)
    (hentry : (onDisk drv).Runs (findDirentry drv path) (viewOf drv s) (.error err) w) : leadsTo drv c path s = false := by
  obtain ⟨_,hfd,-⟩ := hentry s hs rfl
  rw [leadsTo,hfd]

omit G in
/-- The data has been written over the bytes of the file. -/
theorem FileHas.wrote {l' : List Nat} (h : FileHas drv s T d k e b) (hs : Sound drv (viewOf drv s) T)
    (hoff : offset.toNat ≤ e.fileSize.toNat) (hlt : offset.toNat + data.val.length < 2^32)
    (hw : WroteFile drv T d k e offset.toNat data.val (offset.toNat + data.val.length) (viewOf drv s) (viewOf drv t) l') :
    FileHas drv t ((T.withChain e.getFirstCluster l').setSlot d k (e.grown (offset.toNat + data.val.length))) d k
      (e.grown (offset.toNat + data.val.length)) (splice b offset.toNat data.val) := by
  have hmem := List.mem_of_getElem? h.getElem?.1
  have hsize := ((hs.ok.slot h.dir hmem).child h.child h.cluster).fileSize h.file
  have hold := length_contents hs.stored.solid (hs.stored.inside e.getFirstCluster)
  obtain ⟨z,hz⟩ := hw.contents
  refine ⟨⟨h.toLeads.grown l' _,(Tree.dir_withChain (h.toFileAt.kind hs)).mpr h.dir,?_,?_,?_⟩,?_⟩
  · rw [isChild_grown]
    exact h.child
  · rw [isDirectory_grown]
    exact h.file
  · rw [getFirstCluster_grown]
    exact h.cluster
  · rw [fileBytes,getFirstCluster_grown,Tree.setSlot_chain,Tree.withChain_chain,Function.update_self,hz,fileSize_grown e hlt,
      take_overwrite _ (hsize.trans hold.ge) hoff,← h.bytes]
    rfl

omit G in
/-- The space has run out behind the first bytes of the data. -/
theorem FileHas.full {l' : List Nat} (h : FileHas drv s T d k e b) (hs : Sound drv (viewOf drv s) T)
    (hoff : offset.toNat ≤ e.fileSize.toNat)
    (hput : Put drv T e.getFirstCluster offset.toNat data.val (viewOf drv s) (T.chain e.getFirstCluster) (viewOf drv t) l') :
    FileHas drv t (T.withChain e.getFirstCluster l') d k e ((splice b offset.toNat data.val).take b.length) := by
  have hmem := List.mem_of_getElem? h.getElem?.1
  have hsize := ((hs.ok.slot h.dir hmem).child h.child h.cluster).fileSize h.file
  have hold := length_contents hs.stored.solid (hs.stored.inside e.getFirstCluster)
  have hlen := length_fileBytes hs h.dir h.file h.child h.cluster hmem
  obtain ⟨z,hz⟩ := hput.contents
  obtain ⟨xs,hxs⟩ := hput.longer
  have hmore : (T.chain e.getFirstCluster).length * drv.clusterSize ≤ l'.length * drv.clusterSize := by
    rw [hxs,List.length_append]
    exact Nat.mul_le_mul_right _ (Nat.le_add_right ..)
  refine ⟨⟨⟨h.slot,h.live,h.first⟩,(Tree.dir_withChain (h.toFileAt.kind hs)).mpr h.dir,h.child,h.file,h.cluster⟩,?_⟩
  rw [← h.bytes,hlen,fileBytes,Tree.withChain_chain,Function.update_self,hz,
    take_overwrite_take _ (hsize.trans hold.ge) hoff (by omega)]
  rfl

omit G in
theorem FileHas.kept (h : FileHas drv s T d k e b) (hk : FileKept (viewOf drv s) T d k e (viewOf drv t) T') :
    FileHas drv t T' d k e b := ⟨hk.1,hk.2.trans h.bytes⟩

omit G in
/-- A new name leaves the file alone. -/
private theorem FileHas.change (h : FileHas drv s T d k e b) (ho : Own drv (viewOf drv s) T) {op : FatOp} (hlive : bornLive op = true)
    (hnw : ∀ path offset data, op ≠ .write path offset data) (hnd : ∀ path, op ≠ .delete path)
    (hch : Change drv p (viewOf drv s) T op (viewOf drv t) T') : FileHas drv t T' d k e b := by
  have empty : ∀ {name attrs q} {new : DirectoryEntry}, bornLive op = true →
      (∃ path, op = .createFile path name ∨ op = .createDirectory path name) → T.Dir q →
      Created drv (viewOf drv s) T q name attrs new (viewOf drv t) T' → FileHas drv t T' d k e b := by
    rintro name attrs q new hborn ⟨path,hop⟩ hq hc
    refine h.kept (hc.fileKept h.toFileAt ho hq (DirectoryEntry.isEmpty_of_valid ?_))
    have hchild := hc.isChild fun e' hset => by
      rcases hop with rfl | rfl
      · simpa only [bornLive,hset] using hborn
      · simpa only [bornLive,hset] using hborn
    rw [DirectoryEntry.isChild,Bool.and_eq_true] at hchild
    exact hchild.1
  generalize hw : viewOf drv t = w at hch
  cases hch with
  | same => exact ⟨h.toFileAt,hw ▸ h.bytes⟩
  | refused hd href =>
    cases href with
    | early => exact ⟨h.toFileAt,hw ▸ h.bytes⟩
    | full => exact ⟨h.toFileAt,hw ▸ h.bytes⟩
    | expanded _ hexp => exact h.kept (hw ▸ hexp.fileKept h.toFileAt ho.toSound hd)
  | createdFile _ _ hd hc => exact empty hlive ⟨_,.inl rfl⟩ hd (hw ▸ hc)
  | createdDirectory _ _ hd hc => exact empty hlive ⟨_,.inr rfl⟩ hd (hw ▸ hc)
  | written => exact absurd rfl (hnw _ _ _)
  | deleted => exact absurd rfl (hnd _)

/-- A write to the file. -/
private theorem FileHas.write_self (h : FileHas drv s T d k e b) (hs : Holds drv s) (ho : Own drv (viewOf drv s) T)
    (hfind : (onDisk drv).Runs (findNode drv path) (viewOf drv s) (.ok id) (viewOf drv s))
    (hid : decodeNodeId id = (e.getFirstCluster,d,a)) (ha : isDirectory a = false)
    (hentry : leadsTo drv e.getFirstCluster path s = true) (hoff : offset.toNat ≤ e.fileSize.toNat)
    (hlt : offset.toNat + data.val.length < 2^32) {r : Except FileSystemError FatReply}
    (hx : exec drv p (.write path offset data) s = .ok (r,t)) :
    Holds drv t ∧ ∃ T' e', Own drv (viewOf drv t) T' ∧ Resized e e' ∧
      FileHas drv t T' d k e' (bytesAfter drv e.getFirstCluster s b r (.write path offset data)) := by
  rw [bytesAfter,if_pos hentry]
  by_cases hne : data.val = []
  · have hempty : data.val.isEmpty = true := by simpa using hne
    have hrun : (onDisk drv).Runs (writeFile drv p id offset.toNat data) (viewOf drv s) (.ok 0) (viewOf drv s) := by
      rw [writeFile,if_pos hempty]
      exact .pure 0 _
    obtain ⟨rfl,ht,hview⟩ := (hfind.bind (hrun.bind (.pure (FatReply.count 0) _))).returns hs hx
    have hview : viewOf drv t = viewOf drv s := hview
    refine ⟨ht,T,e,hview ▸ ho,⟨_,rfl⟩,h.toFileAt,?_⟩
    have hlen := length_fileBytes ho.toSound h.dir h.file h.child h.cluster (List.mem_of_getElem? h.getElem?.1)
    rw [h.bytes] at hlen
    rw [hview,h.bytes,bytesWritten,hne,splice_of_le [] (hoff.trans_eq hlen.symm),overwrite_nil]
  · have hsum : usizeAdd p offset.toNat data.val.length = .ok (offset.toNat + data.val.length) :=
      usizeAdd_of_lt p (Nat.lt_trans hlt (by decide))
    have hfile := h.toFileAt.kind ho.toSound
    obtain ⟨r',w,l',hruns,-,hres⟩ :=
      writeFile_runs G ho.toSound h.dir h.toLeads h.file h.child h.cluster hid ha offset.toNat hne hsum
    rcases hres with ⟨rfl,hw⟩ | ⟨rfl,hput,-⟩
    · obtain ⟨rfl,ht,hview⟩ := (hfind.bind (hruns.bind (.pure (FatReply.count data.val.length) _))).returns hs hx
      obtain rfl : viewOf drv t = w := hview
      refine ⟨ht,_,_,hw.own ho h.dir h.toLeads h.child hfile,?_,h.wrote ho.toSound hoff hlt hw⟩
      exact ⟨_,grown_eq e _⟩
    · obtain ⟨rfl,ht,hview⟩ := (hfind.bind hruns.bind_error).returns hs hx
      obtain rfl : viewOf drv t = w := hview
      exact ⟨ht,_,e,⟨hput.sound,ho.tidy.withChain hfile⟩,⟨_,rfl⟩,h.full ho.toSound hoff hput⟩

/-- Every answered operation leaves the file in its slot, with the bytes that the answer says. -/
theorem FileHas.step (h : FileHas drv s T d k e b) (hs : Holds drv s) (ho : Own drv (viewOf drv s) T) {op : FatOp}
    (hdots : sparesDots drv op s = true) (hlive : bornLive op = true) (hfile : sparesFile drv e.getFirstCluster op s = true)
    {r : Except FileSystemError FatReply} (hx : exec drv p op s = .ok (r,t)) :
    Holds drv t ∧ ∃ T' e', Own drv (viewOf drv t) T' ∧ Resized e e' ∧
      FileHas drv t T' d k e' (bytesAfter drv e.getFirstCluster s b r op) := by
  have stay : ∀ {op}, sparesDots drv op s = true → bornLive op = true → (∀ path offset data, op ≠ .write path offset data) →
      (∀ path, op ≠ .delete path) → exec drv p op s = .ok (r,t) →
      Holds drv t ∧ ∃ T' e', Own drv (viewOf drv t) T' ∧ Resized e e' ∧ FileHas drv t T' d k e' b := by
    intro op hdots hlive hnw hnd hx
    rcases exec_change G hs ho hdots with ⟨r',t',T',hx',ht,ho',hch⟩ | ⟨path,offset,data,_,hop,-⟩
    · rw [hx'] at hx
      cases hx
      exact ⟨ht,T',e,ho',⟨_,rfl⟩,h.change ho hlive hnw hnd hch⟩
    · exact absurd hop (hnw _ _ _)
  -- an operation that returns without a change of the volume
  have idle : ∀ {r'}, (onDisk drv).Runs (exec drv p op) (viewOf drv s) r' (viewOf drv s) → Holds drv t ∧ ∃ T' e',
      Own drv (viewOf drv t) T' ∧ Resized e e' ∧ FileHas drv t T' d k e' b := by
    intro r' hrun
    obtain ⟨-,ht,hview⟩ := hrun.returns hs hx
    have hview : viewOf drv t = viewOf drv s := hview
    exact ⟨ht,T,e,hview ▸ ho,⟨_,rfl⟩,h.toFileAt,hview ▸ h.bytes⟩
  cases op with
  | createFile path name => exact stay hdots hlive (fun _ _ _ heq => by cases heq) (fun _ heq => by cases heq) hx
  | createDirectory path name => exact stay hdots hlive (fun _ _ _ heq => by cases heq) (fun _ heq => by cases heq) hx
  | delete path =>
    rcases path_handled G ho.toSound path with ⟨err,hfind,-⟩ | ⟨id,e',q,hfind,hentry,hh⟩
    · exact idle hfind.bind_error
    · have hdel : e'.firstByte = 0x2E → T.Dir e'.getFirstCluster → hasValidEntries (listed (T.slots e'.getFirstCluster)) = true := by
        intro hb hdir
        obtain ⟨_,hfd,-⟩ := hentry s hs rfl
        obtain ⟨_,hread,-⟩ := ho.readDirectoryEntries_runs G hdir s hs rfl
        simpa [sparesDots,hfd,hread,hb] using hdots
      rcases delete_own G ho hh hdel with ⟨err,hrun⟩ | ⟨w,T',hrun,ho',hq,hdeleted⟩
      · exact idle (hfind.bind hrun.bind_error)
      · have hne : e'.getFirstCluster ≠ e.getFirstCluster := by
          rw [sparesFile,leadsTo_ok hs hentry] at hfile
          simpa using hfile
        obtain ⟨-,ht,hview⟩ := (hfind.bind (hrun.bind (.pure FatReply.done _))).returns hs hx
        obtain rfl : viewOf drv t = w := hview
        exact ⟨ht,T',e,ho',⟨_,rfl⟩,h.kept (hdeleted.fileKept h.toFileAt ho.toSound hq hne)⟩
  | write path offset data =>
    rcases path_handled G ho.toSound path with ⟨err,hfind,hentry⟩ | ⟨id,e',q,hfind,hentry,hh⟩
    · rw [bytesAfter,leadsTo_error hs hentry,if_neg Bool.false_ne_true]
      exact idle hfind.bind_error
    · have hlead := leadsTo_ok (c := e.getFirstCluster) hs hentry
      by_cases hself : e'.getFirstCluster = e.getFirstCluster
      · -- the path leads to the file itself, through its own slot
        rw [beq_iff_eq.mpr hself] at hlead
        obtain ⟨rfl,⟨rfl,-⟩ | ⟨part,hf⟩⟩ := hh
        · exact absurd hself.symm (h.toFileAt.ne_dir ho.toSound ho.ok.root)
        obtain ⟨_,hfd,-⟩ := hentry s hs rfl
        have hdir : e'.isDirectory = false := by
          by_contra hdir
          exact h.toFileAt.ne_dir ho.toSound (hf.dir ho (Bool.not_eq_false _ ▸ hdir)) hself.symm
        have h0 : e'.getFirstCluster ≠ 0 := by
          rw [hself]
          exact h.cluster
        have hchild := hf.isChild_of_file ho.toSound hdir
        obtain ⟨k',hl⟩ := hf.leads ho hchild h0
        obtain ⟨rfl,rfl,rfl⟩ := h.toFileAt.same ⟨hl,hf.attached.dir ho.ok,hchild,hdir,h0⟩ ho.toSound hself.symm
        have hbound : offset.toNat ≤ e.fileSize.toNat ∧ offset.toNat + data.val.length < 2^32 := by
          simpa [sparesFile,hfd] using hfile
        exact h.write_self G hs ho hfind (hf.decode G ho.toSound) (by rw [isDirectory_attributes,hdir]) hlead hbound.1 hbound.2 hx
      · have hother : leadsTo drv e.getFirstCluster path s = false := hlead.trans (beq_eq_false_iff_ne.mpr hself)
        rw [bytesAfter,hother,if_neg Bool.false_ne_true]
        rcases writeFile_own (p := p) G ho hh offset.toNat data with ⟨r',w,T',hrun,ho',hw⟩ | ⟨f,-,hfault⟩
        · have hgood : Holds drv t ∧ viewOf drv t = w := by
            cases r' with
            | error err => exact ((hfind.bind hrun.bind_error).returns hs hx).2
            | ok n => exact ((hfind.bind (hrun.bind (.pure (FatReply.count n) _))).returns hs hx).2
          obtain ⟨ht,rfl⟩ := hgood
          exact ⟨ht,T',e,ho',⟨_,rfl⟩,h.kept (hw.fileKept h.toFileAt ho.toSound (fun heq => hself heq.symm))⟩
        · obtain ⟨t₁,ht₁,hgood,hview⟩ := hfind s hs rfl
          rw [exec,Prog.run_bind_ok ht₁,Prog.run_bind_fault (hfault t₁ hgood hview)] at hx
          cases hx

/-- So does every run. -/
theorem FileHas.run {ops : List FatOp} {rs : List (Except FileSystemError FatReply)} (h : FileHas drv s T d k e b)
    (hs : Holds drv s) (ho : Own drv (viewOf drv s) T) (hc : meets (exec drv p)
      (fun op s => sparesDots drv op s && bornLive op && sparesFile drv e.getFirstCluster op s) ops s = true)
    (hrun : runAll (exec drv p) ops s = .ok (rs,t)) :
    Holds drv t ∧ ∃ T' e', Own drv (viewOf drv t) T' ∧ Resized e e' ∧
      FileHas drv t T' d k e' (bytesAfterAll drv p e.getFirstCluster ops s b) := by
  induction ops generalizing s T e b rs with
  | nil =>
    cases hrun
    exact ⟨hs,T,e,ho,⟨_,rfl⟩,h⟩
  | cons op ops ih =>
    obtain ⟨r,u,rs',hop,hops,-⟩ := runAll_cons hrun
    obtain ⟨hcs,hct⟩ := meets_cons hc hop
    rw [Bool.and_eq_true,Bool.and_eq_true] at hcs
    obtain ⟨hu,T₁,e₁,ho₁,hres,h₁⟩ := h.step G hs ho hcs.1.1 hcs.1.2 hcs.2 hop
    have hcl : e₁.getFirstCluster = e.getFirstCluster := by
      obtain ⟨n,rfl⟩ := hres
      rfl
    rw [← hcl] at h₁ hct
    obtain ⟨ht,T₂,e₂,ho₂,hres₂,h₂⟩ := ih h₁ hu ho₁ hct hops
    refine ⟨ht,T₂,e₂,ho₂,hres.trans hres₂,?_⟩
    rw [bytesAfterAll,hop,← hcl]
    exact h₂

end Steps

/-- What a handle of the file shows of it. -/
theorem FileHas.reads {b : List UInt8} {a : UInt8} (G : Geometry drv) (h : FileHas drv s T d k e b) (hs : Holds drv s)
    (ho : Own drv (viewOf drv s) T) (hid : decodeNodeId id = (e.getFirstCluster,d,a)) (ha : isDirectory a = false) :
    (∀ o n, ∃ t, readFile drv id o n s = .ok (.ok (slice b o n),t)) ∧
      ∃ node t, getNode drv id s = .ok (.ok node,t) ∧ node.size = b.length := by
  refine ⟨fun o n => ?_,nodeOf id e,?_⟩
  · obtain ⟨t,ht,-⟩ := readFile_runs G ho.toSound h.dir h.toLeads h.file h.child h.cluster hid ha o n s hs rfl
    exact ⟨t,h.bytes ▸ ht⟩
  · have hroot : e.getFirstCluster ≠ rootCluster := h.toFileAt.ne_dir ho.toSound ho.ok.root
    have hrun : (onDisk drv).Runs (getNode drv id) (viewOf drv s) (.ok (nodeOf id e)) (viewOf drv s) := by
      rw [getNode,hid]
      simp only [ne_eq,hroot,not_false_eq_true,if_true]
      exact (findEntryByCluster_runs G ho.toSound h.dir h.toLeads).bind (.pure _ _)
    obtain ⟨t,ht,-⟩ := hrun s hs rfl
    refine ⟨t,ht,?_⟩
    rw [← h.bytes,length_fileBytes ho.toSound h.dir h.file h.child h.cluster (List.mem_of_getElem? h.getElem?.1)]
    rfl

/-- A file of a volume in use is a string of bytes: as long as it is not deleted, and its writes leave no gap, the handle
that once named it reads after every run what the answers to these writes have made of the bytes it read before. -/
theorem run_file_store {before ops : List FatOp} {rs rs' : List (Except FileSystemError FatReply)} {t₁ t₂ : Disk}
    (h : Fresh p drv s) (hbefore : meets (exec drv p) (sparesDots drv) before s = true)
    (hreach : runAll (exec drv p) before s = .ok (rs,t)) (hid : findNode drv path t = .ok (.ok id,t₁))
    (he : findDirentry drv path t = .ok (.ok (e,d),t₂)) (hf : e.isDirectory = false) (h0 : e.getFirstCluster ≠ 0)
    (hc : meets (exec drv p) (fun op s => sparesDots drv op s && bornLive op && sparesFile drv e.getFirstCluster op s) ops t = true)
    (hrun : runAll (exec drv p) ops t = .ok (rs',u)) :
    ∃ old, (∀ o n, ∃ t', readFile drv id o n t = .ok (.ok (slice old o n),t')) ∧
      (∀ o n, ∃ u', readFile drv id o n u = .ok (.ok (slice (bytesAfterAll drv p e.getFirstCluster ops t old) o n),u')) ∧
      ∃ node u', getNode drv id u = .ok (.ok node,u') ∧ node.size = (bytesAfterAll drv p e.getFirstCluster ops t old).length := by
  have G := h.geometry
  obtain ⟨ht,T,ho⟩ := h.run_inOrder hbefore hreach
  rcases findNode_handled G ho.toSound path with ⟨err,hfind⟩ | ⟨id',e',d',hfind,hentry,hh⟩
  · exact absurd (hfind.returns ht hid).1 (by simp)
  obtain rfl := Except.ok.inj (hfind.returns ht hid).1
  cases (hentry.returns ht he).1
  obtain ⟨rfl,⟨rfl,rfl⟩ | ⟨part,hfound⟩⟩ := hh
  · cases hf
  have hchild := hfound.isChild_of_file ho.toSound hf
  obtain ⟨k,hl⟩ := hfound.leads ho hchild h0
  have hhas : FileHas drv t T d k e (fileBytes (viewOf drv t) T e) := ⟨⟨hl,hfound.attached.dir ho.ok,hchild,hf,h0⟩,rfl⟩
  have hdec := hfound.decode G ho.toSound
  have ha : isDirectory (e.attributes &&& 0x7F) = false := by rw [isDirectory_attributes,hf]
  obtain ⟨hu,T',e',ho',⟨m,rfl⟩,hhas'⟩ := hhas.run G ht ho hc hrun
  exact ⟨_,(hhas.reads G ht ho hdec ha).1,hhas'.reads G hu ho' hdec ha⟩

/-- F gets a byte, SUB is made, and F gets another byte. -/
private def writesOfF : List FatOp :=
  [.write ['F'] 0 ⟨[0x46],by decide⟩,.createDirectory ['/'] ['S','U','B'],.write ['F'] 1 ⟨[0x47],by decide⟩]

/-- What find_node and find_direntry say of F. -/
private def fileSeen (t : Disk) : Option (FileNodeHandle × DirectoryEntry × Nat × Disk × Disk) :=
  match findNode (tinyDriver 5) ['F'] t,findDirentry (tinyDriver 5) ['F'] t with
  | .ok (.ok id,t₁),.ok (.ok (e,d),t₂) => some (id,e,d,t₁,t₂)
  | _,_ => none

private theorem fileSeen_eq {t₁ t₂ : Disk} (h : fileSeen t = some (id,e,d,t₁,t₂)) :
    findNode (tinyDriver 5) ['F'] t = .ok (.ok id,t₁) ∧ findDirentry (tinyDriver 5) ['F'] t = .ok (.ok (e,d),t₂) := by
  rw [fileSeen] at h
  split at h
  · cases h
    exact ⟨‹_›,‹_›⟩
  · cases h

private def keepsF (c : Nat) (op : FatOp) (s : Disk) : Bool :=
  sparesDots (tinyDriver 5) op s && bornLive op && sparesFile (tinyDriver 5) c op s

theorem run_file_store_tiny : ∃ rs t id e d t₁ t₂ rs' u,
    runAll (exec (tinyDriver 5) .release) [.createFile ['/'] ['F']] (tinyVolume 5) = .ok (rs,t) ∧
      findNode (tinyDriver 5) ['F'] t = .ok (.ok id,t₁) ∧ findDirentry (tinyDriver 5) ['F'] t = .ok (.ok (e,d),t₂) ∧
      runAll (exec (tinyDriver 5) .release) writesOfF t = .ok (rs',u) ∧
      ∃ old, ∀ o n, ∃ u', readFile (tinyDriver 5) id o n u =
        .ok (.ok (slice (bytesAfterAll (tinyDriver 5) .release e.getFirstCluster writesOfF t old) o n),u') := by
  have htrace : ((runAll (exec (tinyDriver 5) .release) [.createFile ['/'] ['F']] (tinyVolume 5)).toOption.map fun x =>
      ((fileSeen x.2).map fun y => (y.2.1.isDirectory,y.2.1.getFirstCluster,
        meets (exec (tinyDriver 5) .release) (keepsF y.2.1.getFirstCluster) writesOfF x.2),
        (runAll (exec (tinyDriver 5) .release) writesOfF x.2).isOk)) = some (some (false,4,true),true) := by decide +kernel
  have hbefore : meets (exec (tinyDriver 5) .release) (sparesDots (tinyDriver 5)) [.createFile ['/'] ['F']] (tinyVolume 5) = true := by
    refine meets_of_forall fun op hop s => ?_
    rw [List.mem_singleton.mp hop]
    rfl
  obtain ⟨rs,t,hreach,hseen⟩ := runAll_of_view htrace
  obtain ⟨hseen,hok⟩ := Prod.ext_iff.mp hseen
  obtain ⟨⟨id,e,d,t₁,t₂⟩,hfile,hsees⟩ := Option.map_eq_some_iff.mp hseen
  obtain ⟨hid,he⟩ := fileSeen_eq hfile
  obtain ⟨hf,hrest⟩ := Prod.ext_iff.mp hsees
  obtain ⟨hc4,hc⟩ := Prod.ext_iff.mp hrest
  have h0 : e.getFirstCluster ≠ 0 := by
    rw [show e.getFirstCluster = 4 from hc4]
    decide
  cases hrun : runAll (exec (tinyDriver 5) .release) writesOfF t with
  | error f =>
    simp only [hrun] at hok
    cases hok
  | ok x =>
    obtain ⟨old,-,hreads,-⟩ :=
      run_file_store (tinyVolume_fresh .release (.inr (rfl : 5 = 5))) hbefore hreach hid he hf h0 hc hrun
    exact ⟨rs,t,id,e,d,t₁,t₂,x.1,x.2,hreach,hid,he,hrun,old,hreads⟩

end Fat32Driver
end MofuOS.Filesystem.Fat32
