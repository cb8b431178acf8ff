import MofuOS.Filesystem.Fat32.Stored

/-! The creations: a slot is claimed in the parent, the new object gets a cleared cluster,
and its entry is written. -/
namespace MofuOS.Filesystem.Fat32
open Lib Io
open Prog (liftO)

section Names
variable {c : Char} {name stem ext : List Char}

private theorem or_high_ne (a : UInt8) {b : UInt8} (hb : 0x2E < b.toNat) : a ||| b ≠ 0x2E := by
  intro h
  have h' : a.toNat ||| b.toNat = 0x2E := by rw [← UInt8.toNat_or,h]; rfl
  have := Nat.right_le_or (n := a.toNat) (m := b.toNat)
  omega

/-- Only the dot itself is encoded with the byte of the dot in front. -/
private theorem utf8EncodeChar_head (hc : c ≠ '.') : ∃ b r, String.utf8EncodeChar c = b :: r ∧ b ≠ 0x2E := by
  rcases c.utf8Size_eq with h | h | h | h
  · refine ⟨_,_,String.utf8EncodeChar_eq_singleton h,fun hb => hc ?_⟩
    have hlt : c.val.toNat ≤ 0x7F := by
      have := (Char.utf8Size_eq_one_iff.mp h)
      simpa [UInt32.le_iff_toNat_le] using this
    have hn := congrArg UInt8.toNat hb
    rw [UInt32.toNat_toUInt8,Nat.mod_eq_of_lt (by omega)] at hn
    exact Char.ext (UInt32.toNat_inj.mp (by rw [hn]; rfl))
  · exact ⟨_,_,String.utf8EncodeChar_eq_cons_cons h,or_high_ne _ (by decide)⟩
  · exact ⟨_,_,String.utf8EncodeChar_eq_cons_cons_cons h,or_high_ne _ (by decide)⟩
  · exact ⟨_,_,String.utf8EncodeChar_eq_cons_cons_cons_cons h,or_high_ne _ (by decide)⟩

private theorem asciiUppercase_ne {b : UInt8} (hb : b ≠ 0x2E) : asciiUppercase b ≠ 0x2E := by
  rw [asciiUppercase]
  split_ifs with h
  · intro he
    have h1 : 0x61 ≤ b.toNat := h.1
    have hn : (b - 32).toNat = 0x2E := by rw [he]; rfl
    rw [UInt8.toNat_sub_of_le _ _ (UInt8.le_iff_toNat_le.mpr (by simpa using (by omega : 32 ≤ b.toNat)))] at hn
    have : (32 : UInt8).toNat = 32 := rfl
    omega
  · exact hb

private theorem stem_cons_of_split (hc : c ≠ '.') (h : splitLastDot (c :: name) = some (stem,ext)) : ∃ r, stem = c :: r := by
  rw [splitLastDot_cons] at h
  split at h
  · cases h
    exact ⟨_,rfl⟩
  · rw [if_neg hc] at h
    cases h

private theorem padded_head {r : List Char} (hc : c ≠ '.') :
    (padded 8 ((utf8 (c :: r)).map asciiUppercase)).head ≠ 0x2E := by
  obtain ⟨b,bs,hb,hne⟩ := utf8EncodeChar_head hc
  have hutf : utf8 (c :: r) = b :: (bs ++ utf8 r) := by
    rw [utf8,List.flatMap_cons,hb]
    rfl
  rw [hutf,List.map_cons]
  exact asciiUppercase_ne hne

/-- A valid name always gives an entry, and never one that reads as a dot entry. -/
theorem newEntry_of_valid (h : isValidFilename name = true) (attrs : UInt8) {cluster : Nat} (hc : cluster < 2^32) :
    ∃ e, Fat32Driver.newEntry name attrs cluster = .ok e ∧ e.attributes = attrs ∧ e.getFirstCluster = cluster ∧
      e.fileSize = 0 ∧ e.firstByte ≠ 0x2E := by
  cases name with
  | nil => cases h
  | cons c cs =>
    have hdot : c ≠ '.' := by
      rintro rfl
      cases h
    have hne : ((c :: cs).isEmpty || (c :: cs).head? == some '.') = false := by simp [hdot]
    rw [isValidFilename,hne] at h
    simp only [Bool.false_eq_true,if_false] at h
    rw [Fat32Driver.newEntry,DirectoryEntry.setFilename]
    cases hsplit : splitLastDot (c :: cs) with
    | none =>
      rw [hsplit] at h
      have hlen : (utf8 (c :: cs)).length ≤ maxNameLength := by simpa using h
      simp only [if_neg (Nat.not_lt.mpr hlen),List.length_nil,if_neg (Nat.not_lt_zero _)]
      exact ⟨_,rfl,rfl,DirectoryEntry.getFirstCluster_setFirstCluster _ hc,rfl,padded_head hdot⟩
    | some p =>
      obtain ⟨stem,ext⟩ := p
      rw [hsplit] at h
      obtain ⟨hstem,hext⟩ : (utf8 stem).length ≤ maxNameLength ∧ (utf8 ext).length ≤ maxExtLength := by simpa using h
      obtain ⟨r,rfl⟩ := stem_cons_of_split hdot hsplit
      simp only [if_neg (Nat.not_lt.mpr hstem),if_neg (Nat.not_lt.mpr hext)]
      exact ⟨_,rfl,rfl,DirectoryEntry.getFirstCluster_setFirstCluster _ hc,rfl,padded_head hdot⟩

end Names

namespace Fat32Driver
variable {drv : Fat32Driver} {v w : FatView} {T : Tree} {c d k n o x : Nat} {e : DirectoryEntry} {name : List Char}

/-- A volume that only this driver has written. -/
structure Own (drv : Fat32Driver) (v : FatView) (T : Tree) : Prop extends Sound drv v T where
  tidy : T.Tidy

theorem Stored.start_inVolume (h : Stored drv v T) (hd : T.chain d ≠ []) : inVolume drv d = true :=
  h.inside d d (h.forest.start_mem hd)

/-- The cluster numbers of the volume fit an entry and a handle. -/
theorem Geometry.inVolume_le (G : Geometry drv) (h : inVolume drv x = true) : x ≤ maxClusterNumber := by
  have := (inVolume_iff.mp h).2
  have := G.maxCluster
  rw [maxClusterNumber]
  omega

theorem Own.root_ne (h : Own drv v T) (hx : T.chain x = []) : x ≠ 2 := by
  rintro rfl
  exact h.ok.root.1 hx

/-- No live entry refers to a cluster that no object starts at. -/
theorem Own.unreferenced (h : Own drv v T) (hx : T.chain x = []) (h0 : x ≠ 0) (hd : T.Dir d) (he : e ∈ T.slots d)
    (hc : e.isChild = true) : e.getFirstCluster ≠ x := by
  intro hex
  exact ((h.ok.slot hd he).child hc (hex ▸ h0)).object (hex ▸ hx)

section Steps
variable (G : Geometry drv)
include G

theorem Own.append (h : Own drv v T) (hx : inVolume drv x = true) (h0 : v.fat x = 0)
    (hlast : (T.chain o).getLast? = some c) :
    Own drv ((fresh drv v x).setFat c x) (T.grow o x (unusedSlots drv)) := by
  have ho : T.chain o ≠ [] := List.ne_nil_of_mem (List.mem_of_getLast? hlast)
  exact ⟨⟨h.stored.append G hx h0 hlast,h.ok.grow ho _⟩,h.tidy.grow ho _⟩

theorem Own.new (h : Own drv v T) (hx : inVolume drv x = true) (h0 : v.fat x = 0) (b : Bool) (d : Nat) :
    Own drv (fresh drv v x) (T.add x b d (unusedSlots drv)) :=
  ⟨⟨h.stored.new G hx h0 b d,h.ok.add (h.stored.free_no_object h0) _⟩,h.tidy.add _⟩

/-- A dot entry is written into a directory other than the root. -/
theorem Own.writeDot_runs (h : Own drv v T) (hd : T.Dir d) (h2 : d ≠ 2) (hk : k < (T.slots d).length)
    (hb : e.firstByte = 0x2E) (hdir : e.isDirectory = true) (hsize : e.fileSize = 0) (h0 : e.getFirstCluster ≠ 0)
    (hn : e.getFirstCluster ≤ maxClusterNumber) (hc : e.getFirstCluster = d ∨ e.getFirstCluster = T.parent d) :
    ∃ w, (onDisk drv).Runs (writeDirentry drv d k e) v (.ok ()) w ∧ Own drv w (T.setSlot d k e) ∧ w.fat = v.fat ∧
      ∀ y, y ∉ T.chain d → w.data y = v.data y := by
  have hchild : e.isChild = false := by
    rw [DirectoryEntry.isChild,hb]
    exact Bool.and_false _
  have hdel : e.isDeleted = false := by
    rw [DirectoryEntry.isDeleted,hb]
    rfl
  obtain ⟨w,hrun,hst,hfat,hdata⟩ := h.stored.writeDirentry_runs G hd hk e
  refine ⟨w,hrun,⟨⟨hst,h.ok.setSlot (fun _ => ?_) fun hc => ?_⟩,h.tidy.setSlot (fun _ _ => h0) (fun hd => ?_) fun hc => ?_⟩,
    hfat,hdata⟩
  · exact ⟨hn,fun _ _ => ⟨h2,hdir,hsize,hc.imp_right .inl⟩,by simp [hchild],by simp [hchild]⟩
  · rw [hchild] at hc
    cases hc
  · rw [hdel] at hd
    cases hd
  · rw [hchild] at hc
    cases hc

/-- The entry of a new object is written into a slot behind live entries only. -/
theorem Own.writeChild_runs (h : Own drv v T) (hd : T.Dir d) (hk : k < (T.slots d).length)
    (hbefore : ∀ i e', i < k → (T.slots d)[i]? = some e' → e'.isValid = true) (hb : e.firstByte ≠ 0x2E)
    (hx : e.getFirstCluster = x) (h0 : x ≠ 0) (hn : x ≤ maxClusterNumber) (hch : Tree.ChildOk drv.clusterSize T d e)
    (hnew : ∀ {e'}, e' ∈ T.slots d → e'.isChild = true → e'.getFirstCluster ≠ x) :
    ∃ w, (onDisk drv).Runs (writeDirentry drv d k e) v (.ok ()) w ∧ Own drv w (T.setSlot d k e) ∧ w.fat = v.fat ∧
      ∀ y, y ∉ T.chain d → w.data y = v.data y := by
  obtain ⟨w,hrun,hst,hfat,hdata⟩ := h.stored.writeDirentry_runs G hd hk e
  refine ⟨w,hrun,⟨⟨hst,h.ok.setSlot (fun _ => ?_) fun _ _ i e' _ hi hc => ?_⟩,
    h.tidy.setSlot (fun _ hdot => absurd hdot hb) (fun _ j e' _ hj hc heq => ?_) fun _ i e' hi hi' hdel _ => ?_⟩,hfat,hdata⟩
  · exact ⟨hx ▸ hn,fun _ hdot => absurd hdot hb,fun _ hz => absurd (hx.symm.trans hz) h0,fun _ _ => hch⟩
  · rw [hx]
    exact hnew (List.mem_of_getElem? hi) hc
  · exact absurd (heq.symm.trans hx) (hnew (List.mem_of_getElem? hj) hc)
  · have hv := hbefore i e' hi hi'
    rw [DirectoryEntry.isValid,hdel,Bool.or_true] at hv
    cases hv

end Steps

/-- The slot claimed in directory d: all slots in front of it are live. -/
structure Claimed (T : Tree) (d k : Nat) : Prop where
  inside : k < (T.slots d).length
  before : ∀ i e, i < k → (T.slots d)[i]? = some e → e.isValid = true

/-- Directory d has grown by a cleared cluster. -/
structure Expanded (drv : Fat32Driver) (v : FatView) (T : Tree) (d : Nat) (w : FatView) (T' : Tree) : Prop where
  own : Own drv w T'
  tree : ∃ x, T' = T.grow d x (unusedSlots drv) ∧ freeClusters drv v = x :: freeClusters drv w ∧
    w.data x = List.replicate drv.clusterSize 0 ∧ ∀ y, y ≠ x → w.data y = v.data y

/-- Slot k of directory d is claimed: the first deleted slot, or without one the slot behind the listing,
after the directory has grown. -/
structure SlotClaimed (drv : Fat32Driver) (v : FatView) (T : Tree) (d : Nat) (w : FatView) (T' : Tree) (k : Nat) : Prop
    extends Claimed T' d k where
  own : Own drv w T'
  how : (T' = T ∧ w = v ∧ ∃ e, (listed (T.slots d))[k]? = some e ∧ e.isValid = false) ∨
    ((∀ e ∈ listed (T.slots d), e.isValid = true) ∧ k = (listed (T.slots d)).length ∧ Expanded drv v T d w T')

/-- How a creation in directory d fails: before it has changed anything, or after the directory has grown. -/
inductive Refused (drv : Fat32Driver) (v : FatView) (T : Tree) (d : Nat) : FileSystemError → FatView → Tree → Prop where
  | early {err : FileSystemError} (h : err ≠ .noSpace) : Refused drv v T d err v T
  | full (h : freeClusters drv v = []) : Refused drv v T d .noSpace v T
  | expanded {w : FatView} {T' : Tree} (hall : ∀ e ∈ listed (T.slots d), e.isValid = true) (hw : Expanded drv v T d w T')
      (hfull : freeClusters drv w = []) : Refused drv v T d .noSpace w T'

section Claim
variable (G : Geometry drv)
include G

/-- A directory without a deleted slot grows by a cluster, whether or not it is full. -/
theorem expandDirectory_runs (h : Own drv v T) (hd : T.Dir d) (m : Nat) :
    (∃ w T', (onDisk drv).Runs (expandDirectory drv d m) v (.ok m) w ∧ Expanded drv v T d w T') ∨
      ((onDisk drv).Runs (expandDirectory drv d m) v (.error .noSpace) v ∧ freeClusters drv v = []) := by
  have hchain := h.stored.chained hd.1
  obtain ⟨c,hlast,hrun⟩ := lastClusterFrom_runs G h.stored.solid hchain (Nat.le_succ_of_le hchain.length_le)
  have hc : inVolume drv c = true := h.stored.inside d c (List.mem_of_getLast? hlast)
  rw [expandDirectory]
  rcases allocateClusters_runs G (v := v) with ⟨x,rest,hfree,halloc⟩ | ⟨hnil,halloc⟩
  · obtain ⟨hx,h0⟩ := mem_freeClusters.mp (hfree ▸ List.mem_cons_self)
    have hlink := freeClusters_link hfree (hchain.fat_ne_zero (List.mem_of_getLast? hlast))
    refine .inl ⟨_,_,?_,h.append G hx h0 hlast,x,rfl,by rw [hfree,hlink],Function.update_self ..,
      fun y hy => Function.update_of_ne hy ..⟩
    have hxc : x ≠ c := fun e => h.stored.free_unowned h0 d (e ▸ List.mem_of_getLast? hlast)
    have hnone : (v.setFat x endOfChain).next x = none := by
      rw [FatView.next_setFat_end,Function.update_self]
    have hlt : x < 2^28 := Nat.lt_of_le_of_lt (G.inVolume_le hx) (by decide)
    have hsame : ((fresh drv v x).setFat c x).setFat x endOfChain = (fresh drv v x).setFat c x := by
      have hx' : ((fresh drv v x).setFat c x).fat x = endOfChain := by
        rw [FatView.setFat_fat,Function.update_of_ne hxc]
        exact Function.update_self ..
      rw [FatView.setFat,← hx',Function.update_eq_self]
    refine hrun.bind (halloc.bind ((clearClusters_runs G (h.stored.solid.setFat (by decide)) hx hnone).bind ?_))
    refine (writeFatEntry_runs G (inVolume_iff.mp hc).2 hlt).bind ?_
    have hend := writeFatEntry_runs G (v := (fresh drv v x).setFat c x) (inVolume_iff.mp hx).2
      (show endOfChain < 2^28 by decide)
    rw [hsame] at hend
    exact hend.bind (.pure m _)
  · exact .inr ⟨hrun.bind halloc.bind_error,hnil⟩

omit G in
private theorem listed_before {entries : List DirectoryEntry} {i : Nat} (hi : i < (listed entries).length)
    (he : entries[i]? = some e) : (listed entries)[i]? = some e := by
  obtain ⟨e',he'⟩ : ∃ e', (listed entries)[i]? = some e' := ⟨_,List.getElem?_eq_getElem hi⟩
  rw [he',← he,(listed_getElem? he').1]

theorem findFreeSlot_runs (h : Own drv v T) (hd : T.Dir d) :
    (∃ k w T', (onDisk drv).Runs (findFreeSlotInDirectory drv d (listed (T.slots d))) v (.ok k) w ∧
      SlotClaimed drv v T d w T' k) ∨
      ((onDisk drv).Runs (findFreeSlotInDirectory drv d (listed (T.slots d))) v (.error .noSpace) v ∧
        freeClusters drv v = []) := by
  rw [findFreeSlotInDirectory]
  cases hfind : (listed (T.slots d)).findIdx? fun e => !e.isValid with
  | some i =>
    obtain ⟨hi,hinv,hbefore⟩ := List.findIdx?_eq_some_iff_getElem.mp hfind
    refine .inl ⟨i,v,T,.pure i v,⟨Nat.lt_of_lt_of_le hi (length_listed_le _),fun j e hj he => ?_⟩,h,
      .inl ⟨rfl,rfl,_,List.getElem?_eq_getElem hi,by simpa using hinv⟩⟩
    have hlist := listed_before (Nat.lt_trans hj hi) he
    have := hbefore j hj
    rw [List.getElem?_eq_getElem (Nat.lt_trans hj hi)] at hlist
    rw [Option.some.inj hlist] at this
    simpa using this
  | none =>
    have hall : ∀ e ∈ listed (T.slots d), e.isValid = true := fun e he => by
      simpa using List.findIdx?_eq_none_iff.mp hfind e he
    refine (expandDirectory_runs G h hd (listed (T.slots d)).length).imp ?_ id
    rintro ⟨w,T',hrun,hexp⟩
    refine ⟨_,w,T',hrun,⟨?_,fun j e hj he => ?_⟩,hexp.own,.inr ⟨hall,rfl,hexp⟩⟩
    · obtain ⟨x,rfl,-⟩ := hexp.tree
      have hpos := slotsPerCluster_pos G
      have hle := length_listed_le (T.slots d)
      rw [Tree.grow_slots,Function.update_self,List.length_append,unusedSlots,List.length_replicate]
      omega
    · obtain ⟨x,rfl,-⟩ := hexp.tree
      have hle := length_listed_le (T.slots d)
      rw [Tree.grow_slots,Function.update_self,List.getElem?_append_left (by omega)] at he
      exact hall e (List.mem_of_getElem? (listed_before hj he))

theorem claimSlot_runs (h : Own drv v T) (hd : T.Dir d) (name : List Char) :
    (∃ k w T', (onDisk drv).Runs (claimSlot drv d name) v (.ok k) w ∧ SlotClaimed drv v T d w T' k ∧
      ∀ e ∈ listed (T.slots d), e.isDeleted = false → e.getFilename ≠ utf8 name) ∨
      ∃ err, (onDisk drv).Runs (claimSlot drv d name) v (.error err) v ∧ Refused drv v T d err v T := by
  have hread := h.readDirectoryEntries_runs G hd
  rw [claimSlot]
  cases hany : (listed (T.slots d)).any fun e => !e.isDeleted && e.getFilename == utf8 name with
  | true =>
    refine .inr ⟨.fileExists,hread.bind ?_,.early (by decide)⟩
    simp only [hany]
    exact .fail _ v
  | false =>
    have hnew : ∀ e ∈ listed (T.slots d), e.isDeleted = false → e.getFilename ≠ utf8 name := by
      intro e he hdel hname
      have := List.any_eq_false.mp hany e he
      simp [hdel,hname] at this
    rcases findFreeSlot_runs G h hd with ⟨k,w,T',hrun,hclaim⟩ | ⟨hrun,hnil⟩
    · refine .inl ⟨k,w,T',hread.bind ?_,hclaim,hnew⟩
      simp only [hany]
      exact hrun
    · refine .inr ⟨.noSpace,hread.bind ?_,.full hnil⟩
      simp only [hany]
      exact hrun

end Claim

/-- The slots in the cluster of a new object x below d; b says whether it is a directory. -/
def newSlots (drv : Fat32Driver) (b : Bool) (x d : Nat) : List DirectoryEntry :=
  if b then ((unusedSlots drv).set 0 (.createDotEntry x)).set 1 (.createDotDotEntry d) else unusedSlots drv

/-- A new object has its entry e in a claimed slot of directory d. -/
structure Created (drv : Fat32Driver) (v : FatView) (T : Tree) (d : Nat) (name : List Char) (attrs : UInt8) (e : DirectoryEntry)
    (w : FatView) (T' : Tree) : Prop where
  own : Own drv w T'
  valid : isValidFilename name = true
  entry : newEntry name attrs e.getFirstCluster = .ok e
  unlisted : ∀ e' ∈ listed (T.slots d), e'.isDeleted = false → e'.getFilename ≠ utf8 name
  place : ∃ k u T₁, SlotClaimed drv v T d u T₁ k ∧ freeClusters drv u = e.getFirstCluster :: freeClusters drv w ∧
    T' = (T₁.add e.getFirstCluster e.isDirectory d (newSlots drv e.isDirectory e.getFirstCluster d)).setSlot d k e ∧
    (∀ y, y ∉ T₁.chain d → y ≠ e.getFirstCluster → w.data y = u.data y) ∧
    (e.isDirectory = false → w.data e.getFirstCluster = List.replicate drv.clusterSize 0)

/-- What a creation in directory d answers and leaves. -/
inductive CreateResult (drv : Fat32Driver) (v : FatView) (T : Tree) (d : Nat) (name : List Char) (attrs : UInt8) :
    Except FileSystemError FileNodeHandle → FatView → Tree → Prop where
  | refused {err : FileSystemError} {w : FatView} {T' : Tree} (hown : Own drv w T') (h : Refused drv v T d err w T') :
      CreateResult drv v T d name attrs (.error err) w T'
  | created {e : DirectoryEntry} {w : FatView} {T' : Tree} (h : Created drv v T d name attrs e w T') :
      CreateResult drv v T d name attrs (.ok (encodeNodeId e d)) w T'

theorem CreateResult.own {attrs : UInt8} {r : Except FileSystemError FileNodeHandle} {T' : Tree}
    (h : CreateResult drv v T d name attrs r w T') : Own drv w T' := by
  cases h with
  | refused hown _ => exact hown
  | created h => exact h.own

theorem CreateResult.refused_or_created {attrs : UInt8} {r : Except FileSystemError FileNodeHandle} {T' : Tree}
    (h : CreateResult drv v T d name attrs r w T') : (∃ err, Refused drv v T d err w T') ∨
      ∃ e, Created drv v T d name attrs e w T' := by
  cases h with
  | refused _ h => exact .inl ⟨_,h⟩
  | created h => exact .inr ⟨_,h⟩

theorem SlotClaimed.dir {T' : Tree} (h : SlotClaimed drv v T d w T' k) (hd : T.Dir d) : T'.Dir d := by
  rcases h.how with ⟨rfl,-⟩ | ⟨-,-,hexp⟩
  · exact hd
  · obtain ⟨x,rfl,-⟩ := hexp.tree
    exact ⟨(Tree.grow_extends T d x _ d hd.1).1,hd.2⟩

section Creations
variable {id : FileNodeHandle} {q : Nat} {a attrs : UInt8} {b : Bool} {z : List DirectoryEntry}

private theorem dir_add (hd : T.Dir d) (hdx : d ≠ x) : (T.add x b d z).Dir d := by
  refine ⟨?_,?_⟩
  · rw [Tree.add_chain,Function.update_of_ne hdx]
    exact hd.1
  · rw [Tree.add_isDir,Function.update_of_ne hdx]
    exact hd.2

/-- The new object as its entry describes it. -/
private theorem childOk_add (hdx : d ≠ x) (h2 : x ≠ 2) (hx : e.getFirstCluster = x)
    (hdir : e.isDirectory = b) (hsize : e.fileSize = 0) : Tree.ChildOk n (T.add x b d z) d e := by
  subst hx
  refine ⟨?_,h2,?_,?_,?_,fun _ => hsize,fun _ => ?_⟩
  · rw [Tree.add_chain,Function.update_self]
    simp
  · rw [Tree.add_isDir,Function.update_self,hdir]
  · exact Function.update_self ..
  · show Function.update T.depth _ _ _ = Function.update T.depth _ _ _ + 1
    rw [Function.update_self,Function.update_of_ne hdx]
  · rw [hsize]
    exact Nat.zero_le _

theorem Created.dir {T' : Tree} (hc : Created drv v T d name attrs e w T') (hd : T.Dir d) : T'.Dir d := by
  obtain ⟨k,u,T₁,hclaim,hfree,rfl,-⟩ := hc.place
  have hno := hclaim.own.stored.free_no_object (mem_freeClusters.mp (hfree ▸ List.mem_cons_self)).2
  exact dir_add (z := newSlots drv e.isDirectory e.getFirstCluster d) (hclaim.dir hd)
    fun hdx => (hclaim.dir hd).1 (hdx ▸ hno)

variable (G : Geometry drv)
include G

/-- Both creations up to the new object: either they fail, or the slot k is claimed and x is free. -/
private theorem claim_runs (h : Own drv v T) (hd : T.Dir d) (name : List Char) :
    (∃ err w T', Own drv w T' ∧ Refused drv v T d err w T' ∧ ∀ f : Nat → Nat → FsProg Disk FileNodeHandle,
      (onDisk drv).Runs (do let k ← claimSlot drv d name; let x ← newCleared drv; f k x) v (.error err) w) ∨
    ∃ k x rest w T', SlotClaimed drv v T d w T' k ∧ freeClusters drv w = x :: rest ∧
      (∀ e ∈ listed (T.slots d), e.isDeleted = false → e.getFilename ≠ utf8 name) ∧
      ∀ (f : Nat → Nat → FsProg Disk FileNodeHandle) (r : Except FileSystemError FileNodeHandle) (u : FatView),
        (onDisk drv).Runs (f k x) (fresh drv w x) r u →
          (onDisk drv).Runs (do let k ← claimSlot drv d name; let x ← newCleared drv; f k x) v r u := by
  rcases claimSlot_runs G h hd name with ⟨k,w,T',hclaim,hslot,hname⟩ | ⟨err,hclaim,href⟩
  · rcases newCleared_runs G hslot.own.stored.solid with ⟨x,rest,hfree,hnew⟩ | ⟨hnil,hnew⟩
    · exact .inr ⟨k,x,rest,w,T',hslot,hfree,hname,fun f r u hf => hclaim.bind (hnew.bind hf)⟩
    · refine .inl ⟨.noSpace,w,T',hslot.own,?_,fun f => hclaim.bind hnew.bind_error⟩
      rcases hslot.how with ⟨rfl,rfl,-⟩ | ⟨hall,-,hexp⟩
      · exact .full hnil
      · exact .expanded hall hexp hnil
  · exact .inl ⟨err,v,T,h,href,fun f => hclaim.bind_error⟩

theorem createFile_runs (h : Own drv v T) (hid : decodeNodeId id = (d,q,a)) (hd : isDirectory a = true → T.Dir d)
    (name : List Char) : ∃ r w T', (onDisk drv).Runs (createFile drv id name) v r w ∧
      CreateResult drv v T d name FatFileAttributes.archive r w T' := by
  simp only [createFile,hid]
  cases ha : isDirectory a with
  | false => exact ⟨.error .notDirectory,v,T,.fail _ v,.refused h (.early (by decide))⟩
  | true =>
    cases hname : isValidFilename name with
    | false => exact ⟨.error .invalidFilename,v,T,.fail _ v,.refused h (.early (by decide))⟩
    | true =>
      simp only [Bool.not_true,Bool.false_eq_true,if_false]
      rcases claim_runs G h (hd ha) name with ⟨err,w,T',hown,href,hrun⟩ | ⟨k,x,rest,w,T',hclaim,hfree,hnew,hrun⟩
      · exact ⟨.error err,w,T',hrun _,.refused hown href⟩
      · obtain ⟨hx,h0⟩ := mem_freeClusters.mp (hfree ▸ List.mem_cons_self)
        have hown := hclaim.own
        have hd' := hclaim.dir (hd ha)
        have hno := hown.stored.free_no_object h0
        have hdx : d ≠ x := fun hdx => hd'.1 (hdx ▸ hno)
        have hx0 : x ≠ 0 := Nat.ne_of_gt (Nat.lt_of_lt_of_le Nat.two_pos (inVolume_iff.mp hx).1)
        have hxmax := G.inVolume_le hx
        obtain ⟨e,hentry,hattr,rfl,hsize,hb⟩ := newEntry_of_valid hname FatFileAttributes.archive
          (Nat.lt_of_le_of_lt hxmax (by decide))
        have hdir := DirectoryEntry.isDirectory_of_archive hattr
        have hslots : (T'.add e.getFirstCluster false d (unusedSlots drv)).slots d = T'.slots d := by
          rw [Tree.add_slots,Function.update_of_ne hdx]
        have hchain : (T'.add e.getFirstCluster false d (unusedSlots drv)).chain d = T'.chain d := by
          rw [Tree.add_chain,Function.update_of_ne hdx]
        obtain ⟨u,hwrite,hown',hfat,hdata⟩ := (hown.new G hx h0 false d).writeChild_runs G (dir_add hd' hdx)
          (hslots ▸ hclaim.inside) (hslots ▸ hclaim.before) hb rfl hx0 hxmax
          (childOk_add hdx (hown.root_ne hno) rfl hdir hsize)
          (hslots ▸ fun he hc => hown.unreferenced hno hx0 hd' he hc)
        rw [hchain] at hdata
        have hfree' : freeClusters drv u = rest := by
          rw [← freeClusters_fresh hfree]
          exact freeClusters_congr fun y _ => by rw [hfat]
        refine ⟨.ok (encodeNodeId e d),u,_,hrun _ _ u ?_,.created ⟨hown',hname,hentry,hnew,k,w,T',hclaim,by rw [hfree,hfree'],
          by rw [hdir,newSlots,if_neg Bool.false_ne_true],fun y hy hyx => ?_,fun _ => ?_⟩⟩
        · simp only [hentry]
          exact hwrite.bind (.pure _ u)
        · rw [hdata y hy]
          exact Function.update_of_ne hyx ..
        · rw [hdata _ (hown.stored.free_unowned h0 d)]
          exact Function.update_self ..

theorem createDirectory_runs (h : Own drv v T) (hid : decodeNodeId id = (d,q,a)) (hd : isDirectory a = true → T.Dir d)
    (name : List Char) : ∃ r w T', (onDisk drv).Runs (createDirectory drv id name) v r w ∧
      CreateResult drv v T d name FatFileAttributes.directory r w T' := by
  simp only [createDirectory,hid]
  cases ha : isDirectory a with
  | false => exact ⟨.error .notDirectory,v,T,.fail _ v,.refused h (.early (by decide))⟩
  | true =>
    cases hname : isValidFilename name with
    | false => exact ⟨.error .invalidFilename,v,T,.fail _ v,.refused h (.early (by decide))⟩
    | true =>
      simp only [Bool.not_true,Bool.false_eq_true,if_false]
      rcases claim_runs G h (hd ha) name with ⟨err,w,T',hown,href,hrun⟩ | ⟨k,x,rest,w,T',hclaim,hfree,hnew,hrun⟩
      · exact ⟨.error err,w,T',hrun _,.refused hown href⟩
      · obtain ⟨hx,h0⟩ := mem_freeClusters.mp (hfree ▸ List.mem_cons_self)
        have hown := hclaim.own
        have hd' := hclaim.dir (hd ha)
        have hno := hown.stored.free_no_object h0
        have hdx : d ≠ x := fun hdx => hd'.1 (hdx ▸ hno)
        have hx0 : x ≠ 0 := Nat.ne_of_gt (Nat.lt_of_lt_of_le Nat.two_pos (inVolume_iff.mp hx).1)
        have hxmax := G.inVolume_le hx
        have hdin := hown.stored.start_inVolume hd'.1
        have hdmax := G.inVolume_le hdin
        have hd0 : d ≠ 0 := Nat.ne_of_gt (Nat.lt_of_lt_of_le Nat.two_pos (inVolume_iff.mp hdin).1)
        have hpos := slotsPerCluster_pos G
        obtain ⟨e,hentry,hattr,rfl,hsize,hb⟩ := newEntry_of_valid hname FatFileAttributes.directory
          (Nat.lt_of_le_of_lt hxmax (by decide))
        have hdir := DirectoryEntry.isDirectory_of_directory hattr
        -- the dot entries go into the cleared cluster before anything refers to it
        have hdot : (DirectoryEntry.createDotEntry e.getFirstCluster).getFirstCluster = e.getFirstCluster :=
          DirectoryEntry.getFirstCluster_setFirstCluster _ (Nat.lt_of_le_of_lt hxmax (by decide))
        have hdotdot : (DirectoryEntry.createDotDotEntry d).getFirstCluster = d :=
          DirectoryEntry.getFirstCluster_setFirstCluster _ (Nat.lt_of_le_of_lt hdmax (by decide))
        have hdirx : ∀ z, (T'.add e.getFirstCluster true d z).Dir e.getFirstCluster := fun z => ⟨by simp,by simp⟩
        have hself : ∀ z, (T'.add e.getFirstCluster true d z).slots e.getFirstCluster = z := fun z => Function.update_self ..
        obtain ⟨w₂,hw₂,hown₂,hfat₂,hdata₂⟩ := (hown.new G hx h0 true d).writeDot_runs G (hdirx _) (hown.root_ne hno)
          (k := 0) (by rw [hself,unusedSlots,List.length_replicate]; omega) rfl
          (DirectoryEntry.isDirectory_of_directory rfl) rfl (hdot.symm ▸ hx0) (hdot.symm ▸ hxmax) (.inl hdot)
        rw [Tree.add_setSlot] at hown₂
        have hparent : (T'.add e.getFirstCluster true d ((unusedSlots drv).set 0 (.createDotEntry e.getFirstCluster))).parent
            e.getFirstCluster = d := Function.update_self ..
        obtain ⟨w₃,hw₃,hown₃,hfat₃,hdata₃⟩ := hown₂.writeDot_runs G (hdirx _) (hown.root_ne hno)
          (k := 1) (by rw [hself,List.length_set,unusedSlots,List.length_replicate]; omega) rfl
          (DirectoryEntry.isDirectory_of_directory rfl) rfl (hdotdot.symm ▸ hd0) (hdotdot.symm ▸ hdmax)
          (.inr (hdotdot.trans hparent.symm))
        rw [Tree.add_setSlot] at hown₃
        have hslots : ∀ z, (T'.add e.getFirstCluster true d z).slots d = T'.slots d := fun z => by
          rw [Tree.add_slots,Function.update_of_ne hdx]
        have hchain : ∀ z, (T'.add e.getFirstCluster true d z).chain d = T'.chain d := fun z => by
          rw [Tree.add_chain,Function.update_of_ne hdx]
        have hchainx : ∀ z, (T'.add e.getFirstCluster true d z).chain e.getFirstCluster = [e.getFirstCluster] := fun z => by
          rw [Tree.add_chain,Function.update_self]
        obtain ⟨u,hwrite,hown',hfat,hdata⟩ := hown₃.writeChild_runs G (dir_add hd' hdx)
          (hslots _ ▸ hclaim.inside) (hslots _ ▸ hclaim.before) hb rfl hx0 hxmax
          (childOk_add hdx (hown.root_ne hno) rfl hdir hsize)
          (hslots _ ▸ fun he hc => hown.unreferenced hno hx0 hd' he hc)
        rw [hchain] at hdata
        rw [hchainx] at hdata₂ hdata₃
        have hfree' : freeClusters drv u = rest := by
          rw [← freeClusters_fresh hfree]
          exact freeClusters_congr fun y _ => by rw [hfat,hfat₃,hfat₂]
        refine ⟨.ok (encodeNodeId e d),u,_,hrun _ _ u (hw₂.bind (hw₃.bind ?_)),.created ⟨hown',hname,hentry,hnew,k,w,T',hclaim,
          by rw [hfree,hfree'],by rw [hdir,newSlots,if_pos rfl],fun y hy hyx => ?_,fun hf => ?_⟩⟩
        · simp only [hentry]
          exact hwrite.bind (.pure _ u)
        · have hyx' : y ∉ [e.getFirstCluster] := fun hm => hyx (List.mem_singleton.mp hm)
          rw [hdata y hy,hdata₃ y hyx',hdata₂ y hyx']
          exact Function.update_of_ne hyx ..
        · rw [hdir] at hf
          cases hf

end Creations
end Fat32Driver
end MofuOS.Filesystem.Fat32
