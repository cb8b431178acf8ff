import MofuOS.Filesystem.Fat32.Directory
import MofuOS.Filesystem.Fat32.Tree

/-! A tree stored on a volume, and what each of the driver's disk transactions makes of it. -/
namespace MofuOS.Filesystem.Fat32
open Lib Io
open Prog (liftO)

namespace Fat32Driver
variable {drv : Fat32Driver} {v w : FatView} {T : Tree} {c d k n o x : Nat} {b : Bool} {e : DirectoryEntry}

/-- The slots a zeroed cluster adds to a directory. -/
def unusedSlots (drv : Fat32Driver) : List DirectoryEntry := List.replicate (slotsPerCluster drv) .createEmpty

/-- The FAT holds the chains of T and the clusters the slots of its directories. -/
structure Stored (drv : Fat32Driver) (v : FatView) (T : Tree) : Prop where
  solid : Solid drv v
  forest : Forest v.next T.chain
  inside : ∀ a, ∀ x ∈ T.chain a, inVolume drv x = true
  slots : ∀ {d}, T.Dir d → v.slots (T.chain d) = T.slots d

/-- A volume in good order: the tree it stores has the form the driver relies on. -/
structure Sound (drv : Fat32Driver) (v : FatView) (T : Tree) : Prop where
  stored : Stored drv v T
  ok : T.Ok drv.clusterSize

namespace Stored

theorem chained (h : Stored drv v T) (ho : T.chain o ≠ []) : Chained drv v o (T.chain o) :=
  ⟨h.forest.linked o ho,h.inside o⟩

/-- A free cluster belongs to no object. -/
theorem free_unowned (h : Stored drv v T) (h0 : v.fat x = 0) (a : Nat) : x ∉ T.chain a :=
  fun hx => (h.chained (List.ne_nil_of_mem hx)).fat_ne_zero hx h0

theorem free_no_object (h : Stored drv v T) (h0 : v.fat x = 0) : T.chain x = [] := by
  by_contra hne
  exact h.free_unowned h0 x (h.forest.start_mem hne)

theorem length_slots (G : Geometry drv) (h : Stored drv v T) (hd : T.Dir d) :
    (T.slots d).length = (T.chain d).length * slotsPerCluster drv := by
  rw [← h.slots hd,Fat32Driver.length_slots G h.solid (h.inside d)]

/-- A free cluster is zeroed and made a chain of its own. -/
theorem new (G : Geometry drv) (h : Stored drv v T) (hx : inVolume drv x = true) (h0 : v.fat x = 0) (b : Bool) (d : Nat) :
    Stored drv (fresh drv v x) (T.add x b d (unusedSlots drv)) := by
  have hfree := h.free_unowned h0
  refine ⟨h.solid.fresh,?_,fun a y hy => ?_,fun {a} hd => ?_⟩
  · rw [next_fresh]
    exact h.forest.add hfree
  · rw [Tree.add_chain] at hy
    by_cases ha : a = x
    · rw [ha,Function.update_self,List.mem_singleton] at hy
      rwa [hy]
    · rw [Function.update_of_ne ha] at hy
      exact h.inside a y hy
  · rw [Tree.add_chain,Tree.add_slots]
    by_cases ha : a = x
    · have hz : (fresh drv v x).data x = List.replicate drv.clusterSize 0 := Function.update_self ..
      have hslots := slots_append_zero G (l := []) h.solid.fresh (fun y hy => nomatch hy) hz
      rw [ha,Function.update_self,Function.update_self]
      rwa [List.nil_append,FatView.slots_nil,List.nil_append] at hslots
    · rw [Function.update_of_ne ha,Function.update_of_ne ha]
      have hd' : T.Dir a := by
        refine ⟨?_,?_⟩
        · simpa [Function.update_of_ne ha] using hd.1
        · simpa [Function.update_of_ne ha] using hd.2
      rw [← h.slots hd']
      exact slots_congr fun y hy => Function.update_of_ne (fun e : y = x => hfree a (e ▸ hy)) ..

/-- A free cluster is zeroed and linked behind the chain of object o. -/
theorem append (G : Geometry drv) (h : Stored drv v T) (hx : inVolume drv x = true) (h0 : v.fat x = 0)
    (hlast : (T.chain o).getLast? = some c) :
    Stored drv ((fresh drv v x).setFat c x) (T.grow o x (unusedSlots drv)) := by
  have hfree := h.free_unowned h0
  have ho : T.chain o ≠ [] := List.ne_nil_of_mem (List.mem_of_getLast? hlast)
  have hlt : x < fatEntryReservedBegin := by
    have := (inVolume_iff.mp hx).2
    have := G.maxCluster
    rw [fatEntryReservedBegin]
    omega
  have hsolid : Solid drv ((fresh drv v x).setFat c x) :=
    h.solid.fresh.setFat (Nat.lt_trans hlt (by decide))
  have hold : ∀ a, ∀ y ∈ T.chain a, ((fresh drv v x).setFat c x).data y = v.data y := fun a y hy =>
    Function.update_of_ne (fun e : y = x => hfree a (e ▸ hy)) ..
  refine ⟨hsolid,?_,fun a y hy => ?_,fun {a} hd => ?_⟩
  · rw [FatView.next_setFat_link _ hlt,next_fresh]
    exact h.forest.extend hfree hlast
  · rw [Tree.grow_chain] at hy
    by_cases ha : a = o
    · rw [ha,Function.update_self,List.mem_append,List.mem_singleton] at hy
      rcases hy with hy | rfl
      · exact h.inside o y hy
      · exact hx
    · rw [Function.update_of_ne ha] at hy
      exact h.inside a y hy
  · rw [Tree.grow_chain,Tree.grow_slots]
    by_cases ha : a = o
    · subst ha
      have hd' : T.Dir a := ⟨ho,hd.2⟩
      have hz : ((fresh drv v x).setFat c x).data x = List.replicate drv.clusterSize 0 := Function.update_self ..
      rw [Function.update_self,Function.update_self,slots_append_zero G hsolid (h.inside a) hz,
        slots_congr (hold a),h.slots hd']
      rfl
    · have hd' : T.Dir a := by
        refine ⟨?_,hd.2⟩
        simpa [Function.update_of_ne ha] using hd.1
      rw [Function.update_of_ne ha,Function.update_of_ne ha,← h.slots hd']
      exact slots_congr (hold a)

/-- A free cluster is zeroed and linked behind the chain of a file. -/
theorem appendFile (G : Geometry drv) (h : Stored drv v T) (hx : inVolume drv x = true) (h0 : v.fat x = 0)
    (hf : T.isDir o = false) (hlast : (T.chain o).getLast? = some c) :
    Stored drv ((fresh drv v x).setFat c x) (T.withChain o (T.chain o ++ [x])) := by
  have hgrow := h.append G hx h0 hlast
  refine ⟨hgrow.solid,hgrow.forest,hgrow.inside,fun {d} hd => ?_⟩
  have hdo : d ≠ o := by
    rintro rfl
    have := hd.2
    rw [Tree.withChain_isDir,hf] at this
    cases this
  have hslots := hgrow.slots (d := d) hd
  rwa [Tree.grow_slots,Function.update_of_ne hdo] at hslots

/-- The bytes of an object that is no directory are not part of the tree. -/
theorem rewrite (h : Stored drv v T) (hs : Solid drv w) (hfat : w.fat = v.fat)
    (hdata : ∀ x, x ∉ T.chain o → w.data x = v.data x) (ho : T.isDir o = false) : Stored drv w T := by
  have hnext : w.next = v.next := by
    funext y
    rw [FatView.next,FatView.next,hfat]
  refine ⟨hs,hnext ▸ h.forest,h.inside,fun {a} hd => ?_⟩
  rw [← h.slots hd]
  refine slots_congr fun y hy => hdata y fun hyo => ?_
  have := hd.2
  rw [h.forest.disjoint a o y hy hyo,ho] at this
  cases this

/-- One slot of a directory is written back with its chain. -/
theorem setSlot (h : Stored drv v T) (hd : T.Dir d) (hs : Solid drv w) (hfat : w.fat = v.fat)
    (hdata : ∀ x, x ∉ T.chain d → w.data x = v.data x)
    (hslots : w.slots (T.chain d) = (v.slots (T.chain d)).set k e) : Stored drv w (T.setSlot d k e) := by
  have hnext : w.next = v.next := by
    funext y
    rw [FatView.next,FatView.next,hfat]
  refine ⟨hs,hnext ▸ h.forest,h.inside,fun {a} ha => ?_⟩
  have ha' : T.Dir a := ha
  rw [Tree.setSlot_chain,Tree.setSlot_slots]
  by_cases had : a = d
  · subst had
    rw [Function.update_self,hslots,h.slots hd]
  · rw [Function.update_of_ne had,← h.slots ha']
    exact slots_congr fun y hy => hdata y fun hyd => had (h.forest.disjoint a d y hy hyd)

theorem writeDirentry_runs (G : Geometry drv) (h : Stored drv v T) (hd : T.Dir d) (hk : k < (T.slots d).length)
    (e : DirectoryEntry) :
    ∃ w, (onDisk drv).Runs (writeDirentry drv d k e) v (.ok ()) w ∧ Stored drv w (T.setSlot d k e) ∧
      w.fat = v.fat ∧ ∀ x, x ∉ T.chain d → w.data x = v.data x := by
  rw [← h.slots hd] at hk
  obtain ⟨w,hrun,hs,hfat,hdata,hslots⟩ := Fat32Driver.writeDirentry_runs G h.solid (h.chained hd.1) hk e
  exact ⟨w,hrun,h.setSlot hd hs hfat hdata hslots,hfat,hdata⟩

/-- The chain of an object is freed. -/
theorem free (h : Stored drv v T) (hs : Solid drv w) (hdata : w.data = v.data)
    (hfat : ∀ x, x ∉ T.chain c → w.fat x = v.fat x) : Stored drv w (T.remove c) := by
  refine ⟨hs,?_,fun a y hy => ?_,fun {a} hd => ?_⟩
  · refine h.forest.release fun a ha y hy => ?_
    rw [FatView.next,FatView.next,hfat y fun hyc => ha (h.forest.disjoint a c y hy hyc)]
  · rw [Tree.remove_chain] at hy
    by_cases hac : a = c
    · rw [hac,Function.update_self] at hy
      cases hy
    · rw [Function.update_of_ne hac] at hy
      exact h.inside a y hy
  · by_cases hac : a = c
    · have := hd.1
      rw [hac,Tree.remove_chain,Function.update_self] at this
      exact absurd rfl this
    · rw [Tree.remove_chain,Function.update_of_ne hac,Tree.remove_slots]
      have hd' : T.Dir a := by
        refine ⟨?_,hd.2⟩
        simpa [Function.update_of_ne hac] using hd.1
      rw [← h.slots hd']
      exact slots_congr fun y _ => congrFun hdata y

end Stored

section Lookup
variable (G : Geometry drv)
include G

theorem Sound.readDirectoryEntries_runs (h : Sound drv v T) (hd : T.Dir d) :
    (onDisk drv).Runs (readDirectoryEntries drv d) v (.ok (listed (T.slots d))) v := by
  have hslots := h.stored.slots hd
  rw [← hslots]
  refine Fat32Driver.readDirectoryEntries_runs G h.stored.solid (h.stored.chained hd.1) fun e he => ?_
  rw [hslots] at he
  exact (h.ok.slot hd he).number

omit G in
/-- Cluster 0 has no chain: nothing is listed. -/
theorem readDirectoryEntries_zero : (onDisk drv).Runs (readDirectoryEntries drv 0) v (.ok []) v := by
  have hout : inVolume drv 0 = false := by
    rw [← Bool.not_eq_true,inVolume_iff]
    omega
  have hlen : getClusterChainLength drv 0 = pure 0 := by
    rw [getClusterChainLength,clusterChainLengthFrom,hout]
    rfl
  have hread : readClusterChain drv 0 (0 * drv.clusterSize) = pure [] := by
    rw [readClusterChain,readClusterChainFrom,if_neg (by omega)]
  rw [readDirectoryEntries,hlen]
  refine (Abstraction.Runs.pure 0 v).bind ?_
  rw [hread]
  exact (Abstraction.Runs.pure _ v).bind (.liftO rfl v)

end Lookup

/-- The test a path component is looked up by. -/
def matchesName (name : List UInt8) (e : DirectoryEntry) : Bool := !e.isDeleted && e.fullNameMatches name

/-- The entry a component names in an attached directory p. -/
structure Found (T : Tree) (part : List Char) (e : DirectoryEntry) (p : Nat) : Prop where
  attached : T.Attached p
  named : ∃ name, toFat32Name part = .ok name ∧ (listed (T.slots p)).find? (matchesName name) = some e

namespace Found
variable {part : List Char} {p : Nat}

/-- The slot a found entry is in. -/
theorem slot (h : Found T part e p) :
    ∃ k : Nat, (listed (T.slots p))[k]? = some e ∧ (T.slots p)[k]? = some e ∧ e.isValid = true := by
  obtain ⟨name,-,hfind⟩ := h.named
  obtain ⟨k,hk⟩ := List.getElem?_of_mem (List.mem_of_find?_eq_some hfind)
  obtain ⟨hslot,hne⟩ := listed_getElem? hk
  have hdel := List.find?_some hfind
  rw [matchesName,Bool.and_eq_true,Bool.not_eq_true'] at hdel
  refine ⟨k,hk,hslot,?_⟩
  rw [DirectoryEntry.isValid,hne,hdel.1]
  rfl

theorem mem (h : Found T part e p) : e ∈ T.slots p ∧ e.isValid = true := by
  obtain ⟨k,-,hk,hv⟩ := h.slot
  exact ⟨List.mem_of_getElem? hk,hv⟩

end Found

theorem isChild_of_valid (hv : e.isValid = true) (hb : e.firstByte ≠ 0x2E) : e.isChild = true := by
  rw [DirectoryEntry.isChild,hv]
  simpa using hb

/-- A live directory entry of an attached directory leads to an attached one, or to cluster 0. -/
theorem follow (ho : T.Ok n) (hd : T.Attached d) (he : e ∈ T.slots d) (hv : e.isValid = true)
    (hdir : e.isDirectory = true) : T.Attached e.getFirstCluster ∨ e.getFirstCluster = 0 := by
  by_cases hb : e.firstByte = 0x2E
  · obtain ⟨h2,-,-,hc | hc | hc⟩ := (ho.slot (hd.dir ho) he).dot hv hb
    · exact .inl (hc ▸ hd)
    · exact .inl (hc ▸ (hd.up ho h2).1)
    · exact .inr hc
  · exact .inl (.child hd he (isChild_of_valid hv hb) hdir)

/-- The size of a live directory entry is zero. -/
theorem size_of_directory (ho : T.Ok n) (hd : T.Dir d) (he : e ∈ T.slots d) (hv : e.isValid = true)
    (hdir : e.isDirectory = true) : e.fileSize = 0 := by
  by_cases hb : e.firstByte = 0x2E
  · exact ((ho.slot hd he).dot hv hb).2.2.1
  · exact ((ho.slot hd he).dirChild (isChild_of_valid hv hb) hdir).dirSize hdir

end Fat32Driver

/-- What reading a directory lists. Cluster 0 has no chain: nothing is listed there. -/
def Tree.listing (T : Tree) (c : Nat) : List DirectoryEntry := if c = 0 then [] else listed (T.slots c)

/-- The entry that the components of a path lead to from directory c, and the directory it is in. -/
def Tree.walk (T : Tree) : List (List Char) → Nat → Except FileSystemError (DirectoryEntry × Nat)
  | [], _ => .error .notFound
  | part :: parts, c =>
    match toFat32Name part with
    | .error err => .error err
    | .ok name => match (T.listing c).find? (Fat32Driver.matchesName name) with
      | none => .error .notFound
      | some e =>
        if parts.isEmpty then .ok (e,c)
        else if e.isDirectory then T.walk parts e.getFirstCluster
        else .error .notDirectory

/-- The entry of a path; a path without components leads to the root. -/
def Tree.resolve (T : Tree) (path : List Char) : Except FileSystemError (DirectoryEntry × Nat) :=
  if (pathParts path).isEmpty then .ok (.createForRoot,2) else T.walk (pathParts path) 2

namespace Fat32Driver
variable {drv : Fat32Driver} {v : FatView} {T : Tree} {c n : Nat} {e : DirectoryEntry}

theorem Found.of_listing {part : List Char} {name : List UInt8} (hc : T.Attached c ∨ c = 0) (hname : toFat32Name part = .ok name)
    (hfind : (T.listing c).find? (matchesName name) = some e) : Found T part e c := by
  have h0 : c ≠ 0 := by
    rintro rfl
    rw [Tree.listing,if_pos rfl] at hfind
    cases hfind
  rw [Tree.listing,if_neg h0] at hfind
  exact ⟨hc.resolve_right h0,name,hname,hfind⟩

/-- A walk finds a slot of an attached directory. -/
theorem walk_found (ho : T.Ok n) {parts : List (List Char)} {p : Nat} (hc : T.Attached c ∨ c = 0)
    (h : T.walk parts c = .ok (e,p)) : ∃ part, parts.getLast? = some part ∧ Found T part e p := by
  induction parts generalizing c with
  | nil => cases h
  | cons part parts ih =>
    rw [Tree.walk] at h
    cases hname : toFat32Name part with
    | error err =>
      rw [hname] at h
      cases h
    | ok name =>
      cases hfind : (T.listing c).find? (matchesName name) with
      | none =>
        simp only [hname,hfind] at h
        cases h
      | some entry =>
        simp only [hname,hfind] at h
        have hfound := Found.of_listing hc hname hfind
        split_ifs at h with hlast hdir
        · cases h
          rw [List.isEmpty_iff] at hlast
          exact ⟨part,by rw [hlast]; rfl,hfound⟩
        · obtain ⟨q,hq,hf⟩ := ih (follow ho hfound.attached hfound.mem.1 hfound.mem.2 hdir) h
          obtain ⟨y,ys,rfl⟩ := List.exists_cons_of_ne_nil (List.isEmpty_iff.not.mp hlast)
          exact ⟨q,by rwa [List.getLast?_cons_cons],hf⟩

section Resolve
variable (G : Geometry drv)
include G

theorem Sound.listing_runs (h : Sound drv v T) (hc : T.Dir c ∨ c = 0) :
    (onDisk drv).Runs (readDirectoryEntries drv c) v (.ok (T.listing c)) v := by
  by_cases h0 : c = 0
  · rw [Tree.listing,if_pos h0,h0]
    exact readDirectoryEntries_zero
  · rw [Tree.listing,if_neg h0]
    exact h.readDirectoryEntries_runs G (hc.resolve_right h0)

/-- Looking a path up from an attached directory is a walk through the tree. -/
theorem findDirentryFrom_runs (h : Sound drv v T) {parts : List (List Char)} (hp : parts ≠ [])
    (hc : T.Attached c ∨ c = 0) : (onDisk drv).Runs (findDirentryFrom drv parts c) v (T.walk parts c) v := by
  induction parts generalizing c with
  | nil => exact absurd rfl hp
  | cons part parts ih =>
    rw [findDirentryFrom,Tree.walk]
    cases hname : toFat32Name part with
    | error err => exact .fail err v
    | ok name =>
      refine (h.listing_runs G (hc.imp_left (·.dir h.ok))).bind ?_
      have hmatches : (fun e : DirectoryEntry => !e.isDeleted && e.fullNameMatches name) = matchesName name := rfl
      simp only [hmatches]
      cases hfind : (T.listing c).find? (matchesName name) with
      | none => exact .fail _ v
      | some entry =>
        by_cases hlast : parts = []
        · subst hlast
          exact .pure _ v
        · have hne : parts.isEmpty = false := by simpa using hlast
          cases hdir : entry.isDirectory with
          | false =>
            simp only [hne,hdir,Bool.false_eq_true,if_false]
            exact .fail _ v
          | true =>
            simp only [hne,hdir,Bool.false_eq_true,if_false,if_true]
            have hfound := Found.of_listing hc hname hfind
            exact ih hlast (follow h.ok hfound.attached hfound.mem.1 hfound.mem.2 hdir)

omit G in
/-- A path leads to the root or to a slot of an attached directory. -/
theorem resolve_found (h : Sound drv v T) {path : List Char} {p : Nat} (hr : T.resolve path = .ok (e,p)) :
    (e = .createForRoot ∧ p = 2) ∨ ∃ part, (pathParts path).getLast? = some part ∧ Found T part e p := by
  rw [Tree.resolve] at hr
  split_ifs at hr
  · cases hr
    exact .inl ⟨rfl,rfl⟩
  · exact .inr (walk_found h.ok (.inl .root) hr)

/-- Looking up a path changes nothing. -/
theorem findDirentry_runs (h : Sound drv v T) (path : List Char) :
    (onDisk drv).Runs (findDirentry drv path) v (T.resolve path) v := by
  rw [findDirentry,Tree.resolve]
  by_cases hp : pathParts path = []
  · rw [hp,G.rootDirentry,G.rootCluster]
    exact .pure _ v
  · have hne : (pathParts path).isEmpty = false := by simpa using hp
    rw [hne,G.rootCluster]
    exact findDirentryFrom_runs G h hp (.inl .root)

theorem findNode_runs (h : Sound drv v T) (path : List Char) :
    (onDisk drv).Runs (findNode drv path) v ((T.resolve path).map fun x => encodeNodeId x.1 x.2) v := by
  have hr := findDirentry_runs G h path
  cases hres : T.resolve path with
  | error err =>
    rw [hres] at hr
    exact hr.bind_error
  | ok ep =>
    obtain ⟨e,p⟩ := ep
    rw [hres] at hr
    have hno : (e.isDirectory && e.fileSize != 0) = false := by
      cases hdir : e.isDirectory with
      | false => rfl
      | true =>
        have hsize : e.fileSize = 0 := by
          rcases resolve_found h hres with ⟨rfl,-⟩ | ⟨part,-,hf⟩
          · rfl
          · exact size_of_directory h.ok (hf.attached.dir h.ok) hf.mem.1 hf.mem.2 hdir
        rw [hsize]
        rfl
    refine hr.bind ?_
    simp only [hno]
    exact .pure _ v

end Resolve
end Fat32Driver
end MofuOS.Filesystem.Fat32
