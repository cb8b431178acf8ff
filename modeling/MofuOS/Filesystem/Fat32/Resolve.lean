import MofuOS.Filesystem.Fat32.Integrity
import MofuOS.Filesystem.Fat32.Names
import MofuOS.Filesystem.Sirius

/-! Paths after a creation. Every path that led somewhere still leads there; the path of the new entry leads
to it if its name is looked up by the bytes it is stored under. -/
namespace MofuOS.Filesystem.Fat32
open Lib Io

section Paths
variable {path parent name : List Char}

theorem pathParts_append (a b : List Char) : pathParts (a ++ '/' :: b) = pathParts a ++ pathParts b := by
  rw [pathParts,List.splitOn_append_cons_self,List.filter_append,pathParts,pathParts]

theorem pathParts_slash (l : List Char) : pathParts ('/' :: l) = pathParts l := pathParts_append [] l

theorem pathParts_name (h : '/' ∉ name) (hne : name ≠ []) : pathParts name = [name] := by
  rw [pathParts,List.splitOn_eq_singleton h]
  simp [hne]

/-- A path leads through the components of its parent to its name. -/
theorem pathParts_split (h : Sirius.splitPath path = .ok (parent,name)) (hne : name ≠ []) :
    pathParts path = pathParts parent ++ [name] := by
  rw [Sirius.splitPath] at h
  by_cases hroot : (path.isEmpty || path == ['/']) = true
  · rw [if_pos hroot] at h
    cases h
  rw [if_neg hroot] at h
  dsimp only at h
  have htrim : pathParts (if path.head? = some '/' then path.tail else path) = pathParts path := by
    split_ifs with hhead
    · rw [← List.cons_head?_tail hhead,pathParts_slash,List.tail_cons]
    · rfl
  rw [← htrim]
  generalize (if path.head? = some '/' then path.tail else path) = trimmed at h
  cases hsplit : splitLastSlash trimmed with
  | some p =>
    rw [hsplit] at h
    cases h
    obtain ⟨htrimmed,hname⟩ := splitLastSlash_some hsplit
    rw [htrimmed,pathParts_append,pathParts_name hname hne]
    split_ifs with hroot
    · rw [List.isEmpty_iff.mp hroot]
      rfl
    · rfl
  | none =>
    rw [hsplit] at h
    cases h
    rw [pathParts_name (splitLastSlash_eq_none.mp hsplit) hne]
    rfl

end Paths

/-- The listing of a directory with a new entry: it stands behind live entries only, in the place of a deleted
one or behind the old listing. -/
def Inserted (old new : List DirectoryEntry) (e : DirectoryEntry) : Prop :=
  ∃ front gap back rest, old = front ++ (gap ++ back) ∧ new = front ++ e :: (back ++ rest) ∧
    (∀ x ∈ front, x.isDeleted = false) ∧ ∀ x ∈ gap, x.isDeleted = true

namespace Inserted
variable {old new : List DirectoryEntry} {e a : DirectoryEntry} {P : DirectoryEntry → Bool}

theorem find?_old (h : Inserted old new e) (hlive : ∀ x, P x = true → x.isDeleted = false) (hfind : old.find? P = some a)
    (he : P e = false) : new.find? P = some a := by
  obtain ⟨front,gap,back,rest,rfl,rfl,-,hgap⟩ := h
  have hno : gap.find? P = none := by
    refine List.find?_eq_none.mpr fun x hx hp => ?_
    have := hlive x hp
    rw [hgap x hx] at this
    cases this
  rw [List.find?_append,List.find?_append,hno,Option.none_or] at hfind
  rw [List.find?_append,List.find?_cons_of_neg (by rw [he]; exact Bool.false_ne_true),List.find?_append,← Option.or_assoc,hfind,
    Option.some_or]

theorem find?_new (h : Inserted old new e) (hlive : ∀ x ∈ old, x.isDeleted = false → P x = false) (he : P e = true) :
    new.find? P = some e := by
  obtain ⟨front,gap,back,rest,rfl,rfl,hfront,-⟩ := h
  have hno : front.find? P = none := by
    refine List.find?_eq_none.mpr fun x hx hp => ?_
    rw [hlive x (List.mem_append_left _ hx) (hfront x hx)] at hp
    cases hp
  rw [List.find?_append,hno,Option.none_or,List.find?_cons_of_pos he]

theorem mem_of_live (h : Inserted old new e) (ha : a ∈ old) (hlive : a.isDeleted = false) : a ∈ new := by
  obtain ⟨front,gap,back,rest,rfl,rfl,-,hgap⟩ := h
  rcases List.mem_append.mp ha with ha | ha
  · exact List.mem_append_left _ ha
  rcases List.mem_append.mp ha with ha | ha
  · rw [hgap a ha] at hlive
    cases hlive
  · exact List.mem_append_right _ (List.mem_cons_of_mem _ (List.mem_append_left _ ha))

end Inserted

namespace DirectoryEntry
variable {e : DirectoryEntry} {name : List UInt8}

theorem fullName_of_matches (h : e.fullNameMatches name = true) : e.fullName = name := by
  rw [fullNameMatches,Bool.and_eq_true,beq_iff_eq,beq_iff_eq] at h
  rw [fullName,h.1,h.2,List.take_append_drop]

theorem matches_fullName (e : DirectoryEntry) : e.fullNameMatches e.fullName = true := by
  rw [fullNameMatches,fullName,List.take_left' (List.Vector.toList_length _),List.drop_left' (List.Vector.toList_length _),
    beq_self_eq_true,beq_self_eq_true,Bool.and_self]

end DirectoryEntry

namespace Fat32Driver
variable {drv : Fat32Driver} {p : Profile} {s t u : Disk} {v w : FatView} {T T' T₁ : Tree} {c d k : Nat} {e e' : DirectoryEntry}
  {name : List Char} {attrs : UInt8}

/-- What a creation makes of the slots: slot k of directory d holds the new entry e, whose cluster no object had. -/
structure NewEntry (T : Tree) (d k : Nat) (e : DirectoryEntry) (T' : Tree) : Prop where
  slot : (T'.slots d)[k]? = some e
  free : T.chain e.getFirstCluster = []
  cluster : e.getFirstCluster ≠ 0
  before : ∀ (i : Nat) (x : DirectoryEntry), i < k → (T'.slots d)[i]? = some x → x.isValid = true
  old : ∀ (i : Nat) (x : DirectoryEntry), i ≠ k → (T'.slots d)[i]? = some x → x.isValid = true → (T.slots d)[i]? = some x
  elsewhere : ∀ c, T.chain c ≠ [] → c ≠ d → T'.slots c = T.slots c
  inserted : e.isEmpty = false → Inserted (listed (T.slots d)) (listed (T'.slots d)) e

/-- The claimed slot is a deleted one, or the first one behind the listing. -/
private theorem SlotClaimed.inserted {u : FatView} (h : SlotClaimed drv v T d u T₁ k) (he : e.isEmpty = false) :
    Inserted (listed (T.slots d)) (listed ((T₁.slots d).set k e)) e := by
  rcases h.how with ⟨rfl,-,x,hx,hinvalid⟩ | ⟨hall,hk,hexp⟩
  · have hlt := (List.getElem?_eq_some_iff.mp hx).1
    obtain ⟨-,hused⟩ := listed_getElem? hx
    refine ⟨(listed (T₁.slots d)).take k,[x],(listed (T₁.slots d)).drop (k + 1),[],?_,?_,fun y hy => ?_,fun y hy => ?_⟩
    · rw [List.singleton_append,← (List.getElem?_eq_some_iff.mp hx).2,← List.drop_eq_getElem_cons hlt,List.take_append_drop]
    · rw [listed_set (listed_getElem? hx).1 (he.trans hused.symm),List.append_nil,List.set_eq_take_append_cons_drop,if_pos hlt]
    · obtain ⟨i,hi⟩ := List.getElem?_of_mem hy
      have hik : i < k := Nat.lt_of_lt_of_le (List.getElem?_eq_some_iff.mp hi).1 (List.length_take_le ..)
      rw [List.getElem?_take_of_lt hik] at hi
      exact DirectoryEntry.isDeleted_of_valid (h.before i y hik (listed_getElem? hi).1)
    · rw [List.mem_singleton.mp hy]
      rw [DirectoryEntry.isValid,hused,Bool.false_or,Bool.not_eq_false'] at hinvalid
      exact hinvalid
  · obtain ⟨z,rfl,-⟩ := hexp.tree
    have hsame : listed ((T.grow d z (unusedSlots drv)).slots d) = listed (T.slots d) := by
      rw [Tree.grow_slots,Function.update_self,unusedSlots,listed_append_unused]
    obtain ⟨rest,hrest⟩ := listed_set_end (hsame ▸ hk) h.inside he
    rw [hsame] at hrest
    refine ⟨listed (T.slots d),[],[],rest,(List.append_nil _).symm,hrest,fun y hy => ?_,fun y hy => by cases hy⟩
    exact DirectoryEntry.isDeleted_of_valid (hall y hy)

theorem Created.newEntry (hc : Created drv v T d name attrs e w T') (hd : T.Dir d) : ∃ k, NewEntry T d k e T' := by
  obtain ⟨k,u,T₁,hclaim,hfree,rfl,-⟩ := hc.place
  obtain ⟨hin,h0⟩ := mem_freeClusters.mp (hfree ▸ List.mem_cons_self)
  have hno := hclaim.own.stored.free_no_object h0
  have hdx : d ≠ e.getFirstCluster := fun hdx => (hclaim.dir hd).1 (hdx ▸ hno)
  have hslots : ((T₁.add e.getFirstCluster e.isDirectory d (newSlots drv e.isDirectory e.getFirstCluster d)).setSlot d k e).slots d =
      (T₁.slots d).set k e := by
    rw [Tree.setSlot_slots,Function.update_self,Tree.add_slots,Function.update_of_ne hdx]
  have hfreeT : T.chain e.getFirstCluster = [] := by
    rcases hclaim.how with ⟨rfl,-⟩ | ⟨-,-,hexp⟩
    · exact hno
    · obtain ⟨z,rfl,-⟩ := hexp.tree
      rwa [Tree.grow_chain,Function.update_of_ne hdx.symm] at hno
  refine ⟨k,?_,hfreeT,?_,fun i x hi hx => ?_,fun i x hi hx hv => ?_,fun c hc hcd => ?_,fun he => ?_⟩
  · rw [hslots]
    exact List.getElem?_set_self hclaim.inside
  · have := (inVolume_iff.mp hin).1
    omega
  · rw [hslots,List.getElem?_set_ne (by omega)] at hx
    exact hclaim.before i x hi hx
  · rw [hslots,List.getElem?_set_ne (Ne.symm hi)] at hx
    rcases hclaim.how with ⟨rfl,-⟩ | ⟨-,-,hexp⟩
    · exact hx
    · obtain ⟨z,rfl,-⟩ := hexp.tree
      rw [Tree.grow_slots,Function.update_self,List.getElem?_append] at hx
      split_ifs at hx
      · exact hx
      · rw [List.eq_of_mem_replicate (List.mem_of_getElem? hx)] at hv
        cases hv
  · have hcx : c ≠ e.getFirstCluster := fun hcx => hc (hcx ▸ hfreeT)
    rw [Tree.setSlot_slots,Function.update_of_ne hcd,Tree.add_slots,Function.update_of_ne hcx]
    rcases hclaim.how with ⟨rfl,-⟩ | ⟨-,-,hexp⟩
    · rfl
    · obtain ⟨z,rfl,-⟩ := hexp.tree
      rw [Tree.grow_slots,Function.update_of_ne hcd]
  · rw [hslots]
    exact hclaim.inserted he

namespace NewEntry
variable {i n : Nat} {x : DirectoryEntry}

/-- No other live slot of the directory has the cluster of the new entry. -/
theorem eq_of_cluster (h : NewEntry T d k e T') (ho : T.Ok n) (hatt : T.Attached d) (hi : (T'.slots d)[i]? = some x)
    (hv : x.isValid = true) (hx : x.getFirstCluster = e.getFirstCluster) : i = k := by
  by_contra hik
  have hmem := List.mem_of_getElem? (h.old i x hik hi hv)
  have hslot := ho.slot (hatt.dir ho) hmem
  by_cases hb : x.firstByte = 0x2E
  · rcases follow ho hatt hmem hv (hslot.dot hv hb).2.1 with hatt' | h0
    · rw [hx] at hatt'
      exact (hatt'.dir ho).1 h.free
    · exact h.cluster (hx.symm.trans h0)
  · have hch := hslot.child (isChild_of_valid hv hb) (by rw [hx]; exact h.cluster)
    exact hch.object (by rw [hx]; exact h.free)

/-- If an entry with its cluster is listed, the new slot does not end the listing. -/
theorem used (h : NewEntry T d k e T') (ho : T.Ok n) (hatt : T.Attached d) (hx : x ∈ listed (T'.slots d))
    (hc : x.getFirstCluster = e.getFirstCluster) : e.isEmpty = false := by
  obtain ⟨i,hi⟩ := List.getElem?_of_mem hx
  by_cases hki : k ≤ i
  · exact listed_front hi hki h.slot
  · have hslot := (listed_getElem? hi).1
    have := h.eq_of_cluster ho hatt hslot (h.before i x (by omega) hslot) hc
    omega

/-- What a name leads to in a directory that was there before stays, if the new entry has another name. -/
theorem find?_listing (h : NewEntry T d k e T') (ho : T.Ok n) (he : e.isEmpty = false) (hatt : T.Attached c ∨ c = 0)
    {name : List UInt8} (hfind : (T.listing c).find? (matchesName name) = some x)
    (hnew : c = d → e.fullNameMatches name = false) : (T'.listing c).find? (matchesName name) = some x := by
  by_cases h0 : c = 0
  · rw [Tree.listing,if_pos h0] at hfind
    cases hfind
  rw [Tree.listing,if_neg h0] at hfind ⊢
  by_cases hcd : c = d
  · subst hcd
    refine (h.inserted he).find?_old (fun y hy => ?_) hfind ?_
    · rw [matchesName,Bool.and_eq_true,Bool.not_eq_true'] at hy
      exact hy.1
    · rw [matchesName,hnew rfl,Bool.and_false]
  · rw [h.elsewhere c ((hatt.resolve_right h0).dir ho).1 hcd]
    exact hfind

/-- Every path still leads where it led, if no live entry of the directory had the name of the new one. -/
theorem walk_kept (h : NewEntry T d k e T') (ho : T.Ok n) (he : e.isEmpty = false)
    (hnew : ∀ x ∈ listed (T.slots d), x.isDeleted = false → x.fullName ≠ e.fullName) {parts : List (List Char)}
    (hatt : T.Attached c ∨ c = 0) {r : DirectoryEntry × Nat} (hwalk : T.walk parts c = .ok r) : T'.walk parts c = .ok r := by
  induction parts generalizing c with
  | nil => cases hwalk
  | cons part parts ih =>
    rw [Tree.walk] at hwalk ⊢
    cases hname : toFat32Name part with
    | error err =>
      rw [hname] at hwalk
      cases hwalk
    | ok name =>
      cases hfind : (T.listing c).find? (matchesName name) with
      | none =>
        simp only [hname,hfind] at hwalk
        cases hwalk
      | some x =>
        have hfound := Found.of_listing hatt hname hfind
        have hkept := h.find?_listing ho he hatt hfind fun hcd => ?_
        · simp only [hname,hfind] at hwalk
          simp only [hkept]
          split_ifs at hwalk ⊢ with hlast hdir
          · exact hwalk
          · exact ih (follow ho hfound.attached hfound.mem.1 hfound.mem.2 hdir) hwalk
        · -- the entry found is live and has the name looked up
          subst hcd
          obtain ⟨i,hi,-,hv⟩ := hfound.slot
          have hmatch := List.find?_some hfind
          rw [matchesName,Bool.and_eq_true] at hmatch
          by_contra hboth
          rw [Bool.not_eq_false] at hboth
          refine hnew x (List.mem_of_getElem? hi) (DirectoryEntry.isDeleted_of_valid hv) ?_
          rw [DirectoryEntry.fullName_of_matches hmatch.2,DirectoryEntry.fullName_of_matches hboth]

end NewEntry

section Walks
variable {parts : List (List Char)} {q : Nat} {path parent : List Char}

theorem walk_append (h : T.walk parts c = .ok (e,q)) (hdir : e.isDirectory = true) (name : List Char) :
    T.walk (parts ++ [name]) c = T.walk [name] e.getFirstCluster := by
  induction parts generalizing c with
  | nil => cases h
  | cons part parts ih =>
    rw [Tree.walk] at h
    rw [List.cons_append,Tree.walk]
    cases hname : toFat32Name part with
    | error err =>
      rw [hname] at h
      cases h
    | ok bytes =>
      cases hfind : (T.listing c).find? (matchesName bytes) with
      | none =>
        simp only [hname,hfind] at h
        cases h
      | some x =>
        have hne : (parts ++ [name]).isEmpty = false := by simp
        simp only [hname,hfind] at h
        simp only [hfind,hne,Bool.false_eq_true,if_false]
        split_ifs at h with hlast hx
        · cases h
          rw [if_pos hdir,List.isEmpty_iff.mp hlast,List.nil_append]
        · rw [if_pos hx,ih h]

/-- The last component of a path is looked up in the directory that its parent leads to. -/
theorem resolve_append (hparts : pathParts path = pathParts parent ++ [name]) (h : T.resolve parent = .ok (e,q))
    (hdir : e.isDirectory = true) : T.resolve path = T.walk [name] e.getFirstCluster := by
  have hne : (pathParts parent ++ [name]).isEmpty = false := by simp
  rw [Tree.resolve,hparts,hne,if_neg Bool.false_ne_true]
  rw [Tree.resolve] at h
  split_ifs at h with hroot
  · cases h
    rw [List.isEmpty_iff.mp hroot]
    rfl
  · exact walk_append h hdir name

theorem walk_name {bytes : List UInt8} (h : toFat32Name name = .ok bytes) (hfind : (T.listing c).find? (matchesName bytes) = some e) :
    T.walk [name] c = .ok (e,c) := by
  rw [Tree.walk]
  simp only [h,hfind]
  rfl

theorem walk_name_ok {r : DirectoryEntry × Nat} (h : T.walk [name] c = .ok r) : ∃ bytes, toFat32Name name = .ok bytes ∧
    (T.listing c).find? (matchesName bytes) = some r.1 ∧ r.2 = c := by
  rw [Tree.walk] at h
  cases hname : toFat32Name name with
  | error err =>
    rw [hname] at h
    cases h
  | ok bytes =>
    cases hfind : (T.listing c).find? (matchesName bytes) with
    | none =>
      simp only [hname,hfind] at h
      cases h
    | some x =>
      simp only [hname,hfind] at h
      cases h
      exact ⟨bytes,rfl,hfind,rfl⟩

end Walks

/-- The driver below the path layer. -/
def asDriver (drv : Fat32Driver) : FilesystemDriver Disk where
  findNode := findNode drv
  getNode := getNode drv
  createFile := createFile drv
  createDirectory := createDirectory drv

section Layers
variable (G : Geometry drv)
include G

theorem findEntryByCluster_outcome (h : Sound drv v T) (hd : T.Dir d ∨ d = 0) (c : Nat) :
    (onDisk drv).Runs (findEntryByCluster drv d c) v
      (match (T.listing d).find? fun e => e.getFirstCluster == c with
        | some e => .ok e
        | none => .error .notFound) v := by
  refine (h.listing_runs G hd).bind ?_
  cases hfind : (T.listing d).find? fun e => e.getFirstCluster == c with
  | some e => exact .pure e v
  | none => exact .fail _ v

theorem getNode_outcome (h : Sound drv v T) {id : FileNodeHandle} {q : Nat} {a : UInt8} (hid : decodeNodeId id = (c,q,a))
    (hq : T.Dir q ∨ q = 0) (h2 : c ≠ rootCluster) : (onDisk drv).Runs (getNode drv id) v
      (match (T.listing q).find? fun e => e.getFirstCluster == c with
        | some e => .ok (nodeOf id e)
        | none => .error .notFound) v := by
  have hentry := findEntryByCluster_outcome G h hq c
  rw [getNode,hid]
  simp only [ne_eq,h2,not_false_eq_true,if_true]
  cases hfind : (T.listing q).find? fun e => e.getFirstCluster == c with
  | some e =>
    rw [hfind] at hentry
    exact hentry.bind (.pure _ v)
  | none =>
    rw [hfind] at hentry
    exact hentry.bind_error

omit G in
theorem getNode_root {id : FileNodeHandle} {q : Nat} {a : UInt8} (hid : decodeNodeId id = (rootCluster,q,a)) :
    (onDisk drv).Runs (getNode drv id) v (.ok drv.rootFilenode) v := by
  rw [getNode,hid]
  exact .pure _ v

omit G in
/-- A live entry with the cluster of the root is a dot entry, so it is a directory. -/
theorem Found.root_directory {part : List Char} {q : Nat} (hf : Found T part e q) (ho : Own drv v T)
    (h2 : e.getFirstCluster = rootCluster) : e.isDirectory = true := by
  have hslot := ho.ok.slot (hf.attached.dir ho.ok) hf.mem.1
  by_cases hb : e.firstByte = 0x2E
  · exact (hslot.dot hf.mem.2 hb).2.1
  · exact absurd h2 (hslot.child (isChild_of_valid hf.mem.2 hb) (by rw [h2]; decide)).notRoot

omit G in
/-- The directory a found entry leads to is attached. -/
theorem Found.attached_dir {part : List Char} {q : Nat} (hf : Found T part e q) (ho : Own drv v T) (hdir : e.isDirectory = true) :
    T.Attached e.getFirstCluster := by
  refine (follow ho.ok hf.attached hf.mem.1 hf.mem.2 hdir).resolve_right fun h0 => ?_
  have hin := ho.stored.start_inVolume (hf.dir ho hdir).1
  rw [h0,inVolume_iff] at hin
  omega

/-- The node of a path, in the volume as it is: its handle leads to the cluster of the path's entry. -/
theorem resolvePath_runs (hroot : drv.rootFilenode.nodeId = encodeNodeId .createForRoot 2) (ho : Own drv v T) (path : List Char) :
    (∃ err, (onDisk drv).Runs (Sirius.resolvePath drv.asDriver path) v (.error err) v) ∨
      ∃ node e q q' a, (onDisk drv).Runs (Sirius.resolvePath drv.asDriver path) v (.ok node) v ∧ T.resolve path = .ok (e,q) ∧
        decodeNodeId node.nodeId = (e.getFirstCluster,q',a) ∧
        (isDirectory a = true → e.isDirectory = true ∧ T.Attached e.getFirstCluster) := by
  have hfind := findNode_runs G ho.toSound path
  have hrootId : decodeNodeId drv.rootFilenode.nodeId = (rootCluster,2,FatFileAttributes.directory) := by
    rw [hroot]
    exact decode_root
  cases hres : T.resolve path with
  | error err =>
    rw [hres] at hfind
    exact .inl ⟨err,hfind.bind_error⟩
  | ok r =>
    obtain ⟨e,q⟩ := r
    rw [hres] at hfind
    rcases resolve_found ho.toSound hres with ⟨rfl,rfl⟩ | ⟨part,-,hf⟩
    · exact .inr ⟨_,_,2,2,_,hfind.bind (getNode_root decode_root),rfl,hrootId,fun _ => ⟨rfl,.root⟩⟩
    have hid := hf.decode G ho.toSound
    by_cases h2 : e.getFirstCluster = rootCluster
    · rw [h2] at hid
      refine .inr ⟨_,e,q,2,_,hfind.bind (getNode_root hid),rfl,by rw [hrootId,h2],fun _ => ⟨hf.root_directory ho h2,?_⟩⟩
      rw [h2]
      exact .root
    have hnode := getNode_outcome G ho.toSound hid (.inl (hf.attached.dir ho.ok)) h2
    cases hfirst : (T.listing q).find? fun x => x.getFirstCluster == e.getFirstCluster with
    | none =>
      rw [hfirst] at hnode
      exact .inl ⟨.notFound,hfind.bind hnode⟩
    | some x =>
      rw [hfirst] at hnode
      refine .inr ⟨_,e,q,q,_,hfind.bind hnode,rfl,hid,fun ha => ?_⟩
      rw [isDirectory_attributes] at ha
      exact ⟨ha,hf.attached_dir ho ha⟩

end Layers

/-- What a creation of the path layer has done: parent is the node of the path dir, which leads to directory d,
and e is the new entry there. -/
structure Made (drv : Fat32Driver) (v : FatView) (T : Tree) (dir name : List Char) (parent : FileNode) (d : Nat)
    (e : DirectoryEntry) (node : FileNode) (w : FatView) (T' : Tree) : Prop where
  resolves : (onDisk drv).Runs (Sirius.resolvePath drv.asDriver dir) v (.ok parent) v
  leads : ∃ x q, T.resolve dir = .ok (x,q) ∧ x.isDirectory = true ∧ x.getFirstCluster = d
  attached : T.Attached d
  handle : ∃ q a, decodeNodeId parent.nodeId = (d,q,a) ∧ isDirectory a = true
  created : ∃ attrs, (attrs = FatFileAttributes.archive ∨ attrs = FatFileAttributes.directory) ∧
    Created drv v T d name attrs e w T'
  node : ∃ x, ((T'.listing d).find? fun y => y.getFirstCluster == e.getFirstCluster) = some x ∧ node = nodeOf (encodeNodeId e d) x

section Making
variable (G : Geometry drv)
include G

/-- The handle of a new entry keeps its clusters. -/
theorem NewEntry.decode (h : NewEntry T d k e T') (ho' : Own drv w T') (hd' : T'.Dir d) :
    decodeNodeId (encodeNodeId e d) = (e.getFirstCluster,d,e.attributes &&& 0x7F) :=
  decode_of_le (ho'.ok.slot hd' (List.mem_of_getElem? h.slot)).number (G.inVolume_le (ho'.stored.start_inVolume hd'.1))

theorem createWith_runs (hroot : drv.rootFilenode.nodeId = encodeNodeId .createForRoot 2) (ho : Own drv v T)
    {path dir : List Char} (hsplit : Sirius.splitPath path = .ok (dir,name))
    (make : FileNodeHandle → List Char → FsProg Disk FileNodeHandle)
    (hattrs : attrs = FatFileAttributes.archive ∨ attrs = FatFileAttributes.directory)
    (hmake : ∀ {id : FileNodeHandle} {d q : Nat} {a : UInt8}, decodeNodeId id = (d,q,a) → (isDirectory a = true → T.Dir d) →
      ∃ r w T', (onDisk drv).Runs (make id name) v r w ∧ CreateResult drv v T d name attrs r w T' ∧
        (isDirectory a = false → ∃ err, r = .error err)) :
    ∃ r w, (onDisk drv).Runs (Sirius.createWith drv.asDriver make path) v r w ∧
      ∀ node, r = .ok node → ∃ parent d e T', Made drv v T dir name parent d e node w T' := by
  rw [Sirius.createWith,hsplit]
  dsimp only
  rcases resolvePath_runs G hroot ho dir with ⟨err,hres⟩ | ⟨parent,x,q,q',a,hres,hleads,hhandle,hdir⟩
  · exact ⟨.error err,v,hres.bind_error,nofun⟩
  by_cases htype : parent.fileType ≠ .directory
  · refine ⟨.error .notDirectory,v,hres.bind ?_,nofun⟩
    rw [if_pos htype]
    exact .fail _ v
  obtain ⟨r,w,T',hrun,hresult,hfile⟩ := hmake hhandle fun ha => (hdir ha).2.dir ho.ok
  cases hresult with
  | @refused err =>
    refine ⟨.error err,w,hres.bind ?_,nofun⟩
    rw [if_neg htype]
    exact hrun.bind_error
  | created hc =>
    rename_i e
    have ha : isDirectory a = true := by
      by_contra ha
      obtain ⟨err,herr⟩ := hfile (Bool.eq_false_iff.mpr ha)
      cases herr
    obtain ⟨hxdir,hatt⟩ := hdir ha
    have hd' := hc.dir (hatt.dir ho.ok)
    obtain ⟨k,hnew⟩ := hc.newEntry (hatt.dir ho.ok)
    have hnode := getNode_outcome G hc.own.toSound (hnew.decode G hc.own hd') (.inl hd') (ho.root_ne hnew.free)
    cases hfind : (T'.listing x.getFirstCluster).find? fun y => y.getFirstCluster == e.getFirstCluster with
    | none =>
      rw [hfind] at hnode
      refine ⟨.error .notFound,w,hres.bind ?_,nofun⟩
      rw [if_neg htype]
      exact hrun.bind hnode
    | some y =>
      rw [hfind] at hnode
      refine ⟨.ok (nodeOf (encodeNodeId e x.getFirstCluster) y),w,hres.bind ?_,fun node hok => ?_⟩
      · rw [if_neg htype]
        exact hrun.bind hnode
      · cases hok
        exact ⟨parent,_,e,T',hres,⟨x,q,hleads,hxdir,rfl⟩,hatt,⟨q',a,hhandle,ha⟩,⟨attrs,hattrs,hc⟩,y,hfind,rfl⟩

theorem created_made (hroot : drv.rootFilenode.nodeId = encodeNodeId .createForRoot 2) (hs : Holds drv s)
    (ho : Own drv (viewOf drv s) T) {path dir : List Char} (hsplit : Sirius.splitPath path = .ok (dir,name)) {node : FileNode}
    (h : Sirius.createFile drv.asDriver path s = .ok (.ok node,u) ∨ Sirius.createDirectory drv.asDriver path s = .ok (.ok node,u)) :
    Holds drv u ∧ ∃ parent d e T', Made drv (viewOf drv s) T dir name parent d e node (viewOf drv u) T' := by
  have done : ∀ {x : FsProg Disk FileNode} {r w}, (onDisk drv).Runs x (viewOf drv s) r w → x s = .ok (.ok node,u) →
      (∀ node, r = .ok node → ∃ parent d e T', Made drv (viewOf drv s) T dir name parent d e node w T') →
      Holds drv u ∧ ∃ parent d e T', Made drv (viewOf drv s) T dir name parent d e node (viewOf drv u) T' := by
    intro x r w hrun hx hmade
    obtain ⟨hok,hu,hview⟩ := hrun.returns hs hx
    have hview : viewOf drv u = w := hview
    exact ⟨hu,hview ▸ hmade node hok.symm⟩
  rcases h with h | h
  · obtain ⟨r,w,hrun,hmade⟩ := createWith_runs G hroot ho hsplit (createFile drv) (.inl rfl) fun {id d q a} hid hd => by
      cases ha : isDirectory a with
      | false =>
        refine ⟨.error .notDirectory,_,T,?_,.refused ho (.early (by decide)),fun _ => ⟨_,rfl⟩⟩
        simp only [createFile,hid,ha,Bool.not_false,if_true]
        exact .fail _ _
      | true =>
        obtain ⟨r,w,T',hrun,hres⟩ := createFile_runs G ho hid hd name
        exact ⟨r,w,T',hrun,hres,fun hfile => by cases hfile⟩
    exact done hrun h hmade
  · obtain ⟨r,w,hrun,hmade⟩ := createWith_runs G hroot ho hsplit (createDirectory drv) (.inr rfl) fun {id d q a} hid hd => by
      cases ha : isDirectory a with
      | false =>
        refine ⟨.error .notDirectory,_,T,?_,.refused ho (.early (by decide)),fun _ => ⟨_,rfl⟩⟩
        simp only [createDirectory,hid,ha,Bool.not_false,if_true]
        exact .fail _ _
      | true =>
        obtain ⟨r,w,T',hrun,hres⟩ := createDirectory_runs G ho hid hd name
        exact ⟨r,w,T',hrun,hres,fun hfile => by cases hfile⟩
    exact done hrun h hmade

end Making

/-- No live entry of the directory at dir is stored under the bytes that the name is stored under. -/
def NameFree (drv : Fat32Driver) (dir name : List Char) (s : Disk) : Prop :=
  ∀ (parent : FileNode) (s₁ : Disk) (entries : List DirectoryEntry) (new : DirectoryEntry),
    Sirius.resolvePath drv.asDriver dir s = .ok (.ok parent,s₁) → Lists drv s (decodeNodeId parent.nodeId).1 entries →
    DirectoryEntry.createEmpty.setFilename name = .ok new → ∀ e ∈ entries, e.isDeleted = false → e.fullName ≠ new.fullName

/-- After a creation, which led from s to t, its path leads to the new node, and the parent lists that node once
and every node that it listed before. -/
structure Resolves (drv : Fat32Driver) (path dir : List Char) (node : FileNode) (s t : Disk) : Prop where
  found : ∃ t', findNode drv path t = .ok (.ok node.nodeId,t')
  listed : ∃ parent old new s' s'' t', Sirius.resolvePath drv.asDriver dir s = .ok (.ok parent,s') ∧
    listDirectory drv parent.nodeId s = .ok (.ok old,s'') ∧ listDirectory drv parent.nodeId t = .ok (.ok new,t') ∧
    (new.filter fun m => m.nodeId == node.nodeId) = [node] ∧ ∀ m ∈ old, m ∈ new

private theorem filter_eq_singleton {α : Type} {l : List α} {P : α → Bool} {k : Nat} {a : α} (hk : l[k]? = some a) (ha : P a = true)
    (h : ∀ i x, l[i]? = some x → P x = true → i = k) : l.filter P = [a] := by
  obtain ⟨hlt,rfl⟩ := List.getElem?_eq_some_iff.mp hk
  have hfront : (l.take k).filter P = [] := by
    refine List.filter_eq_nil_iff.mpr fun x hx hp => ?_
    obtain ⟨i,hi⟩ := List.getElem?_of_mem hx
    have hik : i < k := Nat.lt_of_lt_of_le (List.getElem?_eq_some_iff.mp hi).1 (List.length_take_le ..)
    rw [List.getElem?_take_of_lt hik] at hi
    have := h i x hi hp
    omega
  have hback : (l.drop (k + 1)).filter P = [] := by
    refine List.filter_eq_nil_iff.mpr fun x hx hp => ?_
    obtain ⟨i,hi⟩ := List.getElem?_of_mem hx
    rw [List.getElem?_drop] at hi
    have := h _ x hi hp
    omega
  have hl : l.take k ++ l[k] :: l.drop (k + 1) = l := by rw [← List.drop_eq_getElem_cons hlt,List.take_append_drop]
  have hfilter := congrArg (List.filter P) hl
  rw [List.filter_append,hfront,List.nil_append,List.filter_cons_of_pos ha,hback] at hfilter
  exact hfilter.symm

section Created
variable (G : Geometry drv) (ho : Own drv v T) (hatt : T.Attached d) (hnew : NewEntry T d k e T') (ho' : Own drv w T')
  (hd' : T'.Dir d) (he : e.isEmpty = false)
include G ho hatt hnew ho' hd' he

omit G ho hatt hnew he in
private theorem listing_dir : T'.listing d = listed (T'.slots d) := by
  have hin := inVolume_iff.mp (ho'.stored.start_inVolume hd'.1)
  exact if_neg (by omega)

omit he in
/-- The handle of the new entry is of no other live entry that its directory lists. -/
private theorem handle_unique {i : Nat} {x : DirectoryEntry} (hx : (listed (T'.slots d))[i]? = some x) (hv : x.isValid = true)
    (hid : encodeNodeId x d = encodeNodeId e d) : i = k := by
  have hslot := (listed_getElem? hx).1
  have hdec := decode_of_le (ho'.ok.slot hd' (List.mem_of_getElem? hslot)).number
    (G.inVolume_le (ho'.stored.start_inVolume hd'.1))
  rw [hid,hnew.decode G ho' hd'] at hdec
  exact hnew.eq_of_cluster ho.ok hatt hslot hv (Prod.mk.inj hdec).1.symm

omit G ho hatt ho' hd' in
private theorem listed_new : (listed (T'.slots d))[k]? = some e := by
  refine listed_of_front hnew.slot fun i hi x hx => ?_
  by_cases hik : i = k
  · subst hik
    rw [hnew.slot] at hx
    rwa [← Option.some.inj hx]
  · exact DirectoryEntry.isEmpty_of_valid (hnew.before i x (by omega) hx)

omit G in
/-- The first entry with the new cluster is the new entry. -/
private theorem first_new {x : DirectoryEntry}
    (hfind : ((T'.listing d).find? fun y => y.getFirstCluster == e.getFirstCluster) = some x) : x = e := by
  rw [listing_dir ho' hd',List.find?_eq_some_iff_getElem] at hfind
  obtain ⟨hx,i,hi,hix,hfirst⟩ := hfind
  have hlist := listed_new hnew he
  have hget : (listed (T'.slots d))[i]? = some x := by rw [List.getElem?_eq_getElem hi,hix]
  rcases Nat.lt_trichotomy i k with hik | hik | hik
  · have hslot := (listed_getElem? hget).1
    have := hnew.eq_of_cluster ho.ok hatt hslot (hnew.before i x hik hslot) (beq_iff_eq.mp hx)
    omega
  · rw [hik,hlist] at hget
    exact (Option.some.inj hget).symm
  · have hno := hfirst k hik
    rw [(List.getElem?_eq_some_iff.mp hlist).2] at hno
    simp at hno

omit ho hatt hnew ho' hd' he in
theorem listDirectory_runs (h : Sound drv v T) (hd : T.Dir d) {id : FileNodeHandle} {q : Nat} {a : UInt8}
    (hid : decodeNodeId id = (d,q,a)) (ha : isDirectory a = true) : (onDisk drv).Runs (listDirectory drv id) v
      (.ok (((listed (T.slots d)).filter fun x => x.isValid && !x.isVolumeId).map fun x => nodeOf (encodeNodeId x d) x)) v := by
  rw [listDirectory,hid]
  simp only [ha,Bool.not_true,Bool.false_eq_true,if_false]
  exact (h.readDirectoryEntries_runs G hd).bind (.pure _ v)

/-- The new listing shows the node of the new entry once. -/
private theorem listed_once (hv : e.isValid = true) (hlabel : e.isVolumeId = false) :
    ((((listed (T'.slots d)).filter fun x => x.isValid && !x.isVolumeId).map fun x => nodeOf (encodeNodeId x d) x).filter
      fun m => m.nodeId == encodeNodeId e d) = [nodeOf (encodeNodeId e d) e] := by
  rw [List.filter_map,List.filter_filter]
  refine congrArg (List.map _) (filter_eq_singleton (listed_new hnew he) ?_ fun i x hx hp => ?_)
  · simp [hv,hlabel,nodeOf]
  · rw [Bool.and_eq_true,Bool.and_eq_true] at hp
    exact handle_unique G ho hatt hnew ho' hd' hx hp.2.1 (beq_iff_eq.mp hp.1)

omit G ho hatt ho' hd' in
/-- What was listed before still is. -/
private theorem listed_kept {m : FileNode}
    (hm : m ∈ ((listed (T.slots d)).filter fun x => x.isValid && !x.isVolumeId).map fun x => nodeOf (encodeNodeId x d) x) :
    m ∈ ((listed (T'.slots d)).filter fun x => x.isValid && !x.isVolumeId).map fun x => nodeOf (encodeNodeId x d) x := by
  obtain ⟨x,hx,rfl⟩ := List.mem_map.mp hm
  obtain ⟨hx,hshown⟩ := List.mem_filter.mp hx
  have hlive := DirectoryEntry.isDeleted_of_valid (Bool.and_eq_true .. ▸ hshown).1
  exact List.mem_map_of_mem (List.mem_filter.mpr ⟨(hnew.inserted he).mem_of_live hx hlive,hshown⟩)

end Created

section Resolving
variable (G : Geometry drv) (hs : Holds drv s) (ho : Own drv (viewOf drv s) T) (hu : Holds drv u)
  {path dir : List Char} {parent node : FileNode}
include G hs ho hu

/-- The path of a created node leads to it exactly if its name is ASCII. -/
theorem Made.resolves_iff (h : Made drv (viewOf drv s) T dir name parent d e node (viewOf drv u) T')
    (hsplit : Sirius.splitPath path = .ok (dir,name)) (hfree : NameFree drv dir name s) :
    Resolves drv path dir node s u ↔ name.all isAscii = true := by
  obtain ⟨attrs,hattrs,hc⟩ := h.created
  have hatt := h.attached
  have hd := hatt.dir ho.ok
  have ho' := hc.own
  have hd' := hc.dir hd
  obtain ⟨k,hnew⟩ := hc.newEntry hd
  obtain ⟨x,hfirst,rfl⟩ := h.node
  have he : e.isEmpty = false := by
    rw [listing_dir ho' hd'] at hfirst
    have hcluster := List.find?_some hfirst
    exact hnew.used ho.ok hatt (List.mem_of_find?_eq_some hfirst) (beq_iff_eq.mp hcluster)
  obtain rfl := first_new ho hatt hnew ho' hd' he hfirst
  obtain ⟨q,a,hhandle,ha⟩ := h.handle
  obtain ⟨new,hset,hname,hbyte,hattr⟩ := newEntry_fields hc.entry
  obtain ⟨s',hres,-⟩ := h.resolves s hs rfl
  -- the premise, read in the tree
  have hother : ∀ y ∈ listed (T.slots d), y.isDeleted = false → y.fullName ≠ x.fullName := by
    have hlists := lists_listed G hs ho.toSound hd
    rw [hname]
    exact hfree parent s' _ new hres (by rwa [hhandle]) hset
  have hvalid := hc.valid
  have hne : name ≠ [] := (isValidFilename_iff.mp hvalid).1
  have hwalk : T'.resolve path = T'.walk [name] d := by
    obtain ⟨y,r,hleads,hdir,rfl⟩ := h.leads
    have hkept : T'.resolve dir = .ok (y,r) := by
      rw [Tree.resolve] at hleads ⊢
      split_ifs at hleads ⊢
      · exact hleads
      · exact hnew.walk_kept ho.ok he hother (.inl .root) hleads
    exact resolve_append (pathParts_split hsplit hne) hkept hdir
  have hfind := findNode_runs G ho'.toSound path
  rw [hwalk] at hfind
  have hiff := toFat32Name_setFilename_iff hvalid hset
  rw [← hname] at hiff
  constructor
  · rintro ⟨⟨u',hfound⟩,-⟩
    obtain ⟨hok,-⟩ := hfind.returns hu hfound
    cases hstep : T'.walk [name] d with
    | error err =>
      rw [hstep] at hok
      cases hok
    | ok r =>
      rw [hstep] at hok
      have hid : encodeNodeId x d = encodeNodeId r.1 r.2 := Except.ok.inj hok
      obtain ⟨bytes,hbytes,hy,hr⟩ := walk_name_ok hstep
      rw [listing_dir ho' hd'] at hy
      have hmatch := List.find?_some hy
      rw [matchesName,Bool.and_eq_true,Bool.not_eq_true'] at hmatch
      obtain ⟨i,hi⟩ := List.getElem?_of_mem (List.mem_of_find?_eq_some hy)
      have hv : r.1.isValid = true := by
        rw [DirectoryEntry.isValid,(listed_getElem? hi).2,hmatch.1]
        rfl
      rw [hr] at hid
      have hik := handle_unique G ho hatt hnew ho' hd' hi hv hid.symm
      rw [hik,listed_new hnew he] at hi
      refine hiff.mp ?_
      rw [Option.some.inj hi,DirectoryEntry.fullName_of_matches hmatch.2]
      exact hbytes
  · intro hascii
    have hdel : x.isDeleted = false := by
      rw [DirectoryEntry.isDeleted,hbyte]
      exact isDeleted_of_ascii hvalid hset hascii
    have hv : x.isValid = true := by
      rw [DirectoryEntry.isValid,he,hdel]
      rfl
    have hlabel : x.isVolumeId = false := by
      rw [DirectoryEntry.isVolumeId,hattr]
      rcases hattrs with rfl | rfl <;> rfl
    have hmatch : matchesName x.fullName x = true := by
      rw [matchesName,hdel,DirectoryEntry.matches_fullName]
      rfl
    have hfirst : (T'.listing d).find? (matchesName x.fullName) = some x := by
      rw [listing_dir ho' hd']
      refine (hnew.inserted he).find?_new (fun y hy hlive => ?_) hmatch
      rw [matchesName,Bool.and_eq_false_iff]
      refine .inr (Bool.eq_false_iff.mpr fun hm => hother y hy hlive ?_)
      rw [DirectoryEntry.fullName_of_matches hm]
    rw [walk_name (hiff.mpr hascii) hfirst] at hfind
    obtain ⟨u',hfound,-⟩ := hfind u hu rfl
    obtain ⟨s'',hold,-⟩ := listDirectory_runs G ho.toSound hd hhandle ha s hs rfl
    obtain ⟨t',hlist,-⟩ := listDirectory_runs G ho'.toSound hd' hhandle ha u hu rfl
    exact ⟨⟨u',hfound⟩,parent,_,_,s',s'',t',hres,hold,hlist,listed_once G ho hatt hnew ho' hd' he hv hlabel,
      fun m hm => listed_kept hnew he hm⟩

end Resolving

/-- On every volume that a run without deletions through dot entries reaches from a fresh format, a created path
whose name was free leads to the new node, listed once beside what was listed before, exactly if the name is
ASCII. -/
theorem run_created_resolves_iff {ops : List FatOp} {rs : List (Except FileSystemError FatReply)} (h : Fresh p drv s)
    (hc : meets (exec drv p) (sparesDots drv) ops s = true) (hrun : runAll (exec drv p) ops s = .ok (rs,t))
    {path dir : List Char} {node : FileNode} (hsplit : Sirius.splitPath path = .ok (dir,name)) (hfree : NameFree drv dir name t)
    (hcreate : Sirius.createFile drv.asDriver path t = .ok (.ok node,u) ∨
      Sirius.createDirectory drv.asDriver path t = .ok (.ok node,u)) :
    Resolves drv path dir node t u ↔ name.all isAscii = true := by
  obtain ⟨ht,T,ho⟩ := h.run_inOrder hc hrun
  obtain ⟨hu,parent,d,e,T',hmade⟩ := created_made h.geometry h.rootNode ht ho hsplit hcreate
  exact hmade.resolves_iff h.geometry ht ho hu hsplit hfree

/-- A call that returns a value, seen by its evaluation. -/
private theorem made_of_view {α : Type} {x : Outcome (Except FileSystemError α × Disk)} (test : Disk → Bool)
    (h : x.toOption.any (fun y => y.1.toBool && test y.2) = true) : ∃ a u, x = .ok (.ok a,u) ∧ test u = true := by
  obtain ⟨⟨r,u⟩,hx,hr⟩ := (Option.any_eq_true ..).mp h
  rw [Bool.and_eq_true] at hr
  cases r with
  | error e => cases hr.1
  | ok a => exact ⟨a,u,of_toOption hx,hr.2⟩

/-- In an empty root every name is free. -/
private theorem nameFree_tiny (name : List Char) : NameFree (tinyDriver 5) ['/'] name (tinyVolume 5) := by
  have hseen : listingMeets (tinyDriver 5) 2 List.isEmpty (tinyVolume 5) = true := by decide +kernel
  obtain ⟨none,⟨u,hnone⟩,hempty⟩ := lists_of_meets hseen
  rintro parent s₁ entries new hres ⟨t,hlist⟩ - e he
  have hroot : Sirius.resolvePath (tinyDriver 5).asDriver ['/'] (tinyVolume 5) =
      .ok (.ok (tinyDriver 5).rootFilenode,tinyVolume 5) := rfl
  rw [hroot] at hres
  cases hres
  have hd : (decodeNodeId (tinyDriver 5).rootFilenode.nodeId).1 = 2 := by decide
  rw [hd] at hlist
  cases hnone.symm.trans hlist
  rw [List.isEmpty_iff.mp hempty] at he
  cases he

theorem run_created_resolves_iff_tiny : ∃ node u,
    Sirius.createFile (tinyDriver 5).asDriver ['/','F'] (tinyVolume 5) = .ok (.ok node,u) ∧
      (Resolves (tinyDriver 5) ['/','F'] ['/'] node (tinyVolume 5) u ↔ ['F'].all isAscii = true) := by
  have hseen : (Sirius.createFile (tinyDriver 5).asDriver ['/','F'] (tinyVolume 5)).toOption.any (fun x => x.1.toBool && true) = true := by
    decide +kernel
  obtain ⟨node,u,hcreate,-⟩ := made_of_view (fun _ => true) hseen
  have hc : meets (exec (tinyDriver 5) .dev) (sparesDots (tinyDriver 5)) [] (tinyVolume 5) = true := rfl
  have hrun : runAll (exec (tinyDriver 5) .dev) [] (tinyVolume 5) = .ok ([],tinyVolume 5) := rfl
  exact ⟨node,u,hcreate,run_created_resolves_iff (tinyVolume_fresh .dev (.inr rfl)) hc hrun rfl (nameFree_tiny ['F']) (.inl hcreate)⟩

private def misses (path : List Char) (u : Disk) : Bool := (findNode (tinyDriver 5) path u).toOption.all fun y => !y.1.toBool

/-- The entry of é is stored under two bytes, and looked up by one. -/
theorem created_not_found : Fresh .dev (tinyDriver 5) (tinyVolume 5) ∧ NameFree (tinyDriver 5) ['/'] [Char.ofNat 0xE9] (tinyVolume 5) ∧
    ∃ node u, Sirius.createFile (tinyDriver 5).asDriver ['/',Char.ofNat 0xE9] (tinyVolume 5) = .ok (.ok node,u) ∧
      ¬ Resolves (tinyDriver 5) ['/',Char.ofNat 0xE9] ['/'] node (tinyVolume 5) u := by
  have hseen : (Sirius.createFile (tinyDriver 5).asDriver ['/',Char.ofNat 0xE9] (tinyVolume 5)).toOption.any (fun x => x.1.toBool &&
      misses ['/',Char.ofNat 0xE9] x.2) = true := by
    decide +kernel
  obtain ⟨node,u,hcreate,hmissing⟩ := made_of_view (misses ['/',Char.ofNat 0xE9]) hseen
  refine ⟨tinyVolume_fresh .dev (.inr rfl),nameFree_tiny _,node,u,hcreate,fun h => ?_⟩
  obtain ⟨t,ht⟩ := h.found
  rw [misses,ht] at hmissing
  cases hmissing

end Fat32Driver
end MofuOS.Filesystem.Fat32
