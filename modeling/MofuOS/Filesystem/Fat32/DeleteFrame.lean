import MofuOS.Filesystem.Fat32.SlotWrite

/-! What a deletion leaves on the disk, byte by byte: the FAT entries of one chain are cleared and the
first byte of one slot is overwritten. -/
namespace MofuOS.Filesystem.Fat32
open Lib Io

namespace Fat32Driver
variable {drv : Fat32Driver} {p : Profile} {s t u : Disk} {v w : FatView} {T T' : Tree} {c d k x : Nat} {l m : List Nat}
  {e : DirectoryEntry} {id : FileNodeHandle} {path : List Char}

/-- The 32 bits of the FAT entry of cluster x. -/
def entryBits (drv : Fat32Driver) (s : Disk) (x : Nat) : Nat := leNat (slice s.data (fatOffset drv x) 4)

/-- No cluster of l has byte b of the disk in its FAT entry. -/
def OutsideEntries (drv : Fat32Driver) (l : List Nat) (b : Nat) : Prop :=
  ∀ c ∈ l, b < fatOffset drv c ∨ fatOffset drv c + 4 ≤ b

/-- The FAT entries of l are cleared up to their top four bits, and nothing else on the disk has changed. -/
structure OnlyEntriesCleared (drv : Fat32Driver) (l : List Nat) (s t : Disk) : Prop where
  cleared : ∀ x ∈ l, entryBits drv t x &&& 0x0FFFFFFF = 0
  kept : ∀ x ∈ l, entryBits drv t x &&& 0xF0000000 = entryBits drv s x &&& 0xF0000000
  outside : ∀ b, OutsideEntries drv l b → t.data[b]? = s.data[b]?

theorem entryBits_congr (h : ∀ b, fatOffset drv x ≤ b → b < fatOffset drv x + 4 → t.data[b]? = s.data[b]?) :
    entryBits drv t x = entryBits drv s x := by
  have hslice : slice t.data (fatOffset drv x) 4 = slice s.data (fatOffset drv x) 4 := by
    apply List.ext_getElem?
    intro i
    rw [getElem?_slice,getElem?_slice]
    split_ifs with hi
    · exact h _ (by omega) (by omega)
    · rfl
  rw [entryBits,entryBits,hslice]

/-- The FAT entries of two clusters share no byte. -/
private theorem outsideEntries_of_notMem {b : Nat} (hx : x ∉ l) (hlo : fatOffset drv x ≤ b) (hhi : b < fatOffset drv x + 4) :
    OutsideEntries drv l b := by
  intro c hc
  have hne : c ≠ x := fun heq => hx (heq ▸ hc)
  simp only [fatOffset] at *
  omega

/-- One entry after the other. -/
private theorem OnlyEntriesCleared.cons (hx : x ∉ l) (h₁ : OnlyEntriesCleared drv [x] s u) (h₂ : OnlyEntriesCleared drv l u t) :
    OnlyEntriesCleared drv (x :: l) s t := by
  have hfirst : entryBits drv t x = entryBits drv u x :=
    entryBits_congr fun b hlo hhi => h₂.outside b (outsideEntries_of_notMem hx hlo hhi)
  have hrest : ∀ y ∈ l, entryBits drv u y = entryBits drv s y := by
    intro y hy
    have hyx : y ∉ [x] := fun hmem => hx (List.mem_singleton.mp hmem ▸ hy)
    exact entryBits_congr fun b hlo hhi => h₁.outside b (outsideEntries_of_notMem hyx hlo hhi)
  refine ⟨fun y hy => ?_,fun y hy => ?_,fun b hb => ?_⟩
  · rcases List.mem_cons.mp hy with rfl | hy
    · rw [hfirst]
      exact h₁.cleared _ (List.mem_singleton_self _)
    · exact h₂.cleared y hy
  · rcases List.mem_cons.mp hy with rfl | hy
    · rw [hfirst]
      exact h₁.kept _ (List.mem_singleton_self _)
    · rw [h₂.kept y hy,hrest y hy]
  · rw [h₂.outside b fun y hy => hb y (List.mem_cons_of_mem _ hy)]
    refine h₁.outside b fun y hy => ?_
    rw [List.mem_singleton.mp hy]
    exact hb x List.mem_cons_self

section Free
variable (G : Geometry drv)
include G

/-- Clearing one FAT entry. -/
private theorem writeFatEntry_clears (hs : Holds drv s) (hc : inVolume drv c = true) :
    ∃ t, writeFatEntry drv c emptyFatEntry s = .ok (.ok (),t) ∧ Holds drv t ∧
      viewOf drv t = (viewOf drv s).setFat c 0 ∧ OnlyEntriesCleared drv [c] s t := by
  have hmax := (inVolume_iff.mp hc).2
  obtain ⟨t,ht,hgood,hview⟩ := writeFatEntry_runs G (v := viewOf drv s) hmax (show emptyFatEntry < 2^28 by decide) s hs rfl
  obtain ⟨hnone,-⟩ | ⟨hle,b,hlen,⟨hmask,hkept⟩,hw⟩ := writeFatEntry_cases G.bytesPerSector c emptyFatEntry s
  · rw [fatEntryOn_of_holds G hs hmax] at hnone
    cases hnone
  rw [hw] at ht
  cases ht
  have hoff : fatOffset drv c ≤ s.data.length := by
    rw [fatOffset]
    omega
  have hself := slice_overwrite_self (d := b) hoff
  rw [hlen] at hself
  refine ⟨_,hw,hgood,hview,fun x hx => ?_,fun x hx => ?_,fun a ha => ?_⟩
  · rw [List.mem_singleton.mp hx,entryBits,hself,hmask]
    rfl
  · rw [List.mem_singleton.mp hx,entryBits,hself,hkept,entryBits]
  · have := ha c (List.mem_singleton_self c)
    show (overwrite s.data _ _)[a]? = _
    rw [getElem?_overwrite _ hoff,hlen]
    split_ifs <;> first | rfl | omega

/-- Freeing a chain clears its entries and no other byte. -/
private theorem freeClusterChainFrom_clears (hs : Holds drv s) (h : Chained drv (viewOf drv s) c l) {fuel : Nat}
    (hf : l.length ≤ fuel) : ∃ t, freeClusterChainFrom drv fuel c s = .ok (.ok (),t) ∧ OnlyEntriesCleared drv l s t := by
  induction l generalizing c fuel s with
  | nil => exact absurd rfl h.linked.ne_nil
  | cons x l ih =>
    rw [List.length_cons] at hf
    obtain ⟨fuel,rfl⟩ := Nat.exists_eq_succ_of_ne_zero (show fuel ≠ 0 by omega)
    obtain ⟨rfl,hv,hcase⟩ := h.inv
    obtain ⟨u,hw,hu,hview,hone⟩ := writeFatEntry_clears G hs hv
    rw [freeClusterChainFrom,if_pos hv]
    obtain ⟨rfl,hc⟩ | ⟨y,hy,hc,hrest,hx⟩ := hcase
    · obtain ⟨s',hnext,-⟩ := getNextCluster_none G (solid_viewOf G hs) hv hc s hs rfl
      obtain rfl := getNextCluster_readOnly drv x _ _ _ hnext
      refine ⟨u,?_,hone⟩
      rw [Prog.run_bind_ok hnext]
      exact hw
    · obtain ⟨s',hnext,-⟩ := getNextCluster_some G hv hc hy s hs rfl
      obtain rfl := getNextCluster_readOnly drv x _ _ _ hnext
      have hchain : Chained drv (viewOf drv u) y l := by
        rw [hview]
        exact hrest.congr fun z hz => Function.update_of_ne (fun heq : z = x => hx (heq ▸ hz)) ..
      obtain ⟨t,ht,hall⟩ := ih hu hchain (Nat.le_of_succ_le_succ hf)
      refine ⟨t,?_,.cons hx hone hall⟩
      rw [Prog.run_bind_ok hnext]
      simp only [hy,Bool.not_true,Bool.false_eq_true,if_false]
      rw [Prog.run_bind_ok hw,ht]

end Free

/-- A decoded slot has the bytes of its entry. -/
private theorem slotBytes_eq (hk : ((viewOf drv s).slots l)[k]? = some e) : slotBytes drv s l k = e.asBytes := by
  rw [FatView.slots,getElem?_decodeSlots,directoryEntrySize] at hk
  split_ifs at hk with hlt
  have hlen : (slice ((viewOf drv s).contents l) (32 * k) 32).length = 32 := length_slice (by omega)
  rw [← Option.some.inj hk,DirectoryEntry.asBytes_decode hlen]
  rfl

/-- After a slot write the slot has the bytes of the new entry. -/
private theorem OnlySlotWritten.bytes (h : OnlySlotWritten drv d l k e s t) : slotBytes drv t l k = e.asBytes := by
  have hdec := h.decodes
  rw [DirectoryEntry.fromBytes] at hdec
  split_ifs at hdec with hshort
  have hlen : (slotBytes drv t l k).length = 32 := by
    have hle : (slotBytes drv t l k).length ≤ 32 := List.length_take_le ..
    omega
  rw [← Except.ok.inj hdec,DirectoryEntry.asBytes_decode hlen]

/-- Slot k of the directory in the clusters of m is marked, the FAT entries of l are cleared up to their
top four bits, and no other byte of the disk has changed. -/
structure OnlyFileDeleted (drv : Fat32Driver) (l m : List Nat) (k : Nat) (s t : Disk) : Prop where
  live : (slotBytes drv s m k).head? ≠ some 0xE5
  marked : slotBytes drv t m k = 0xE5 :: (slotBytes drv s m k).tail
  others : ∀ j, j ≠ k → slotBytes drv t m j = slotBytes drv s m j
  cleared : ∀ x ∈ l, entryBits drv t x &&& 0x0FFFFFFF = 0
  kept : ∀ x ∈ l, entryBits drv t x &&& 0xF0000000 = entryBits drv s x &&& 0xF0000000
  outside : ∀ b, OutsideClusters drv m b → OutsideEntries drv l b → t.data[b]? = s.data[b]?

/-- The directory at c lists a live entry that is no dot entry. -/
def ContainsLive (drv : Fat32Driver) (s : Disk) (c : Nat) : Prop :=
  ∃ entries, Lists drv s c entries ∧ ∃ x ∈ entries, x.isChild = true

/-- Deleting a file or an empty directory by the handle of its entry e in directory d takes exactly that away;
a directory that is not empty is kept. -/
structure DeletesOne (drv : Fat32Driver) (s : Disk) (id : FileNodeHandle) (e : DirectoryEntry) (d : Nat) : Prop where
  one : ¬ (e.isDirectory = true ∧ ContainsLive drv s e.getFirstCluster) → ∃ entries k l m t, Lists drv s d entries ∧
    entries[k]? = some e ∧ GoodChain drv s e.getFirstCluster l ∧ GoodChain drv s d m ∧
    delete drv id s = .ok (.ok (),t) ∧ OnlyFileDeleted drv l m k s t
  kept : e.isDirectory = true → ContainsLive drv s e.getFirstCluster → delete drv id s = .ok (.error .directoryNotEmpty,s)

/-- Of the live entries only labels have no clusters. -/
def Filled (T : Tree) : Prop :=
  T.EachDir fun slots => ∀ e ∈ slots, e.isChild = true → e.isVolumeId = false → e.getFirstCluster ≠ 0

namespace Filled
variable {name : List Char} {attrs : UInt8}

theorem expanded (h : Filled T) (hd : T.Dir d) (hx : Expanded drv v T d w T') : Filled T' := by
  obtain ⟨x,rfl,-⟩ := hx.tree
  refine Tree.EachDir.grow h hd.1 fun hold e he hc => ?_
  rcases List.mem_append.mp he with he | he
  · exact hold e he hc
  · rw [List.eq_of_mem_replicate he] at hc
    cases hc

theorem setSlot (h : Filled T) (he : e.isChild = true → e.isVolumeId = false → e.getFirstCluster ≠ 0) : Filled (T.setSlot d k e) := by
  refine Tree.EachDir.setSlot h fun hd e' he' => ?_
  rcases List.mem_or_eq_of_mem_set he' with he' | rfl
  · exact h d hd e' he'
  · exact he

/-- The slots of a new object hold no live entry yet. -/
private theorem newSlots_childless (drv : Fat32Driver) (b : Bool) (x d : Nat) : ∀ e ∈ newSlots drv b x d, e.isChild = false := by
  have hunused : ∀ e ∈ unusedSlots drv, e.isChild = false := fun e he => by
    rw [List.eq_of_mem_replicate he]
    rfl
  intro e he
  rw [newSlots] at he
  split_ifs at he
  · rcases List.mem_or_eq_of_mem_set he with he | rfl
    · rcases List.mem_or_eq_of_mem_set he with he | rfl
      · exact hunused e he
      · rfl
    · rfl
  · exact hunused e he

theorem created (h : Filled T) (hd : T.Dir d) (hc : Created drv v T d name attrs e w T') : Filled T' := by
  obtain ⟨k,u,T₁,hclaim,hfree,rfl,-⟩ := hc.place
  have h₁ : Filled T₁ := by
    rcases hclaim.how with ⟨rfl,-⟩ | ⟨-,-,hexp⟩
    · exact h
    · exact h.expanded hd hexp
  refine setSlot (Tree.EachDir.add h₁ fun e' he' hc' => ?_) fun _ _ => ?_
  · rw [newSlots_childless _ _ _ _ e' he'] at hc'
    cases hc'
  · have hin := inVolume_iff.mp (mem_freeClusters.mp (hfree ▸ List.mem_cons_self)).1
    omega

theorem written {offset : Nat} {data : List UInt8} (h : Filled T) (hs : Sound drv v T)
    (hw : Written drv p v T d e offset data w T') : Filled T' := by
  cases hw with
  | same => exact h
  | full hf _ _ _ => exact Tree.EachDir.withChain h (hf.kind hs)
  | wrote hf _ _ _ _ =>
    refine setSlot (Tree.EachDir.withChain h (hf.kind hs)) fun _ _ => ?_
    rw [getFirstCluster_grown]
    exact hf.cluster

theorem deleted (h : Filled T) (hx : Deleted drv v T d c w T') : Filled T' := by
  obtain ⟨k,e,-,-,-,htree⟩ := hx.slot
  have hset : Filled (T.setSlot d k e.markDeleted) := setSlot h fun hc => by cases hc
  rw [htree]
  split_ifs
  · exact hset
  · exact Tree.EachDir.remove hset

theorem change {op : FatOp} (h : Filled T) (hs : Sound drv v T) (hch : Change drv p v T op w T') : Filled T' := by
  cases hch with
  | same => exact h
  | refused hd href =>
    cases href with
    | early => exact h
    | full => exact h
    | expanded _ hexp => exact h.expanded hd hexp
  | createdFile _ _ hd hc => exact h.created hd hc
  | createdDirectory _ _ hd hc => exact h.created hd hc
  | written _ hw => exact h.written hs hw
  | deleted _ hx => exact h.deleted hx

end Filled

theorem Fresh.filled (h : Fresh p drv s) : Filled (rootTree ((viewOf drv s).slots [2])) := by
  intro d _ e he hc hlabel
  rw [DirectoryEntry.isChild,Bool.and_eq_true] at hc
  rw [((h.rootEmpty e he).2 hc.1).1] at hlabel
  cases hlabel

section Delete
variable (G : Geometry drv) (hs : Holds drv s) (ho : Own drv (viewOf drv s) T)
include G hs ho

/-- What the driver reads of a directory, in the state it leaves as it is. -/
private theorem reads_listed (hd : T.Dir d) : readDirectoryEntries drv d s = .ok (.ok (listed (T.slots d)),s) := by
  obtain ⟨t,ht⟩ := lists_listed G hs ho.toSound hd
  rwa [readDirectoryEntries_readOnly drv d _ _ _ ht] at ht

private theorem containsLive_iff (hd : T.Dir c) : ContainsLive drv s c ↔ hasValidEntries (listed (T.slots c)) = true := by
  rw [hasValidEntries,List.any_eq_true]
  constructor
  · rintro ⟨entries,hl,x,hx,hc⟩
    rw [hl.eq_listed G hs ho.toSound hd] at hx
    exact ⟨x,hx,hc⟩
  · rintro ⟨x,hx,hc⟩
    exact ⟨_,lists_listed G hs ho.toSound hd,x,hx,hc⟩

/-- A directory that lists a live entry is kept. -/
private theorem delete_keeps {part : List Char} (hf : Found T part e d) (hdir : e.isDirectory = true)
    (hlive : ContainsLive drv s e.getFirstCluster) :
    delete drv (encodeNodeId e d) s = .ok (.error .directoryNotEmpty,s) := by
  have hc := hf.dir ho hdir
  have hval := (containsLive_iff G hs ho hc).mp hlive
  obtain ⟨k,e',hk,-⟩ := found_findIdx hf
  rw [delete,hf.decode G ho.toSound]
  refine (Prog.run_bind_ok (reads_listed G hs ho (hf.attached.dir ho.ok))).trans ?_
  simp only [hk]
  refine Prog.run_bind_error ?_
  rw [freeContents,isDirectory_attributes,hdir,if_pos rfl,Prog.run_bind_ok (reads_listed G hs ho hc),if_pos hval]
  rfl

/-- A file or an empty directory gives up its chain. -/
private theorem freeContents_clears (hobj : T.chain c ≠ []) {a : UInt8} (ha : isDirectory a = T.isDir c)
    (hno : ¬ (T.isDir c = true ∧ hasValidEntries (listed (T.slots c)) = true)) :
    ∃ t, freeContents drv c a s = .ok (.ok (),t) ∧ Holds drv t ∧ Stored drv (viewOf drv t) (T.remove c) ∧
      (viewOf drv t).data = (viewOf drv s).data ∧ OnlyEntriesCleared drv (T.chain c) s t := by
  have hchain := ho.stored.chained hobj
  obtain ⟨hdir,hval,-⟩ | ⟨-,w,hrun,hst,hdata,-⟩ := freeContents_runs G ho.toSound hobj ha
  · exact absurd ⟨hdir,hval⟩ hno
  obtain ⟨t,ht,hclear⟩ := freeClusterChainFrom_clears G hs hchain (Nat.le_succ_of_le hchain.length_le)
  have hfree : freeContents drv c a s = .ok (.ok (),t) := by
    rw [freeContents,ha]
    split_ifs with hdir
    · rw [Prog.run_bind_ok (reads_listed G hs ho ⟨hobj,hdir⟩),if_neg fun hval => hno ⟨hdir,hval⟩]
      exact ht
    · exact ht
  obtain ⟨-,hgood,hview⟩ := hrun.returns hs hfree
  have hview : viewOf drv t = w := hview
  exact ⟨t,hfree,hgood,hview ▸ hst,by rw [hview,hdata],hclear⟩

/-- The deletion of a live entry whose object may go. -/
private theorem delete_deletes {part : List Char} (hf : Found T part e d) (hc : e.isChild = true) (h0 : e.getFirstCluster ≠ 0)
    (hno : ¬ (e.isDirectory = true ∧ ContainsLive drv s e.getFirstCluster)) :
    ∃ entries k l m t, Lists drv s d entries ∧ entries[k]? = some e ∧ GoodChain drv s e.getFirstCluster l ∧
      GoodChain drv s d m ∧ delete drv (encodeNodeId e d) s = .ok (.ok (),t) ∧ OnlyFileDeleted drv l m k s t := by
  have hd := hf.attached.dir ho.ok
  have hslot := ho.ok.slot hd hf.mem.1
  have hch := hslot.child hc h0
  obtain ⟨k,hl⟩ := hf.leads ho hc h0
  have hdc : d ≠ e.getFirstCluster := by
    intro hdc
    have := hch.depth
    rw [← hdc] at this
    omega
  have ha : isDirectory (e.attributes &&& 0x7F) = T.isDir e.getFirstCluster := by
    rw [isDirectory_attributes,hch.kind]
  obtain ⟨u,hfree,hu,hst,hdata,hclear⟩ := freeContents_clears G hs ho hch.object ha fun ⟨hdir,hval⟩ =>
    hno ⟨hch.kind.trans hdir,(containsLive_iff G hs ho ⟨hch.object,hdir⟩).mpr hval⟩
  have hchain : (T.remove e.getFirstCluster).chain d = T.chain d := Function.update_of_ne hdc ..
  have hdir : Chained drv (viewOf drv u) d (T.chain d) := hchain ▸ hst.chained (hchain.symm ▸ hd.1)
  have hk : k < (T.chain d).length * slotsPerCluster drv := by
    rw [← ho.stored.length_slots G hd]
    exact (List.getElem?_eq_some_iff.mp hl.getElem?.1).1
  obtain ⟨t,ht,hwrite⟩ := writeDirentry_writes G hu hdir hk (e := e.markDeleted) hslot.number
  have hsame : ∀ j, slotBytes drv u (T.chain d) j = slotBytes drv s (T.chain d) j := by
    intro j
    rw [slotBytes,slotBytes,FatView.contents_congr fun x _ => congrFun hdata x]
  have hbytes : slotBytes drv s (T.chain d) k = e.asBytes :=
    slotBytes_eq (by rw [ho.stored.slots hd]; exact hl.getElem?.1)
  -- the slot lies behind the FAT
  have hentry : ∀ x ∈ T.chain e.getFirstCluster, entryBits drv t x = entryBits drv u x := by
    intro x hx
    have hmax := (inVolume_iff.mp (ho.stored.inside _ x hx)).2
    refine entryBits_congr fun b _ hhi => hwrite.outside b fun y hy => .inl ?_
    exact Nat.lt_of_lt_of_le hhi (fatOffset_before G hmax (ho.stored.inside d y hy))
  refine ⟨_,k,_,_,t,lists_listed G hs ho.toSound hd,hl.slot,goodChain_of_object ho.toSound hch.object,
    goodChain_of_object ho.toSound hd.1,?_,?_,?_,fun j hj => ?_,fun x hx => ?_,fun x hx => ?_,fun b hb hb' => ?_⟩
  · rw [delete,hf.decode G ho.toSound]
    refine (Prog.run_bind_ok (reads_listed G hs ho hd)).trans ?_
    simp only [hl.findIdx?,List.getD_eq_getElem?_getD,hl.slot,Option.getD_some]
    rw [Prog.run_bind_ok hfree,ht]
  · rw [hbytes,e.head?_asBytes]
    intro heq
    have hdel := hl.live
    rw [DirectoryEntry.isDeleted,Option.some.inj heq] at hdel
    cases hdel
  · rw [hwrite.bytes,hbytes,e.asBytes_markDeleted]
  · rw [hwrite.others j hj,hsame]
  · rw [hentry x hx,hclear.cleared x hx]
  · rw [hentry x hx,hclear.kept x hx]
  · rw [hwrite.outside b hb,hclear.outside b hb']

end Delete

section ReadOnly

theorem findDirentryFrom_readOnly (drv : Fat32Driver) (parts : List (List Char)) (c : Nat) :
    Prog.ReadOnly (findDirentryFrom drv parts c) := by
  induction parts generalizing c with
  | nil => exact .fault _
  | cons part parts ih =>
    rw [findDirentryFrom]
    cases toFat32Name part with
    | error err => exact .fail err
    | ok name =>
      refine (readDirectoryEntries_readOnly drv c).bind fun entries => ?_
      cases entries.find? fun e => !e.isDeleted && e.fullNameMatches name with
      | none => exact .fail _
      | some entry =>
        simp only
        split_ifs
        · exact .pure _
        · exact .fail _
        · exact ih entry.getFirstCluster

theorem findDirentry_readOnly (drv : Fat32Driver) (path : List Char) : Prog.ReadOnly (findDirentry drv path) := by
  rw [findDirentry]
  split_ifs
  · exact .pure _
  · exact findDirentryFrom_readOnly drv _ _

theorem findNode_readOnly (drv : Fat32Driver) (path : List Char) : Prog.ReadOnly (findNode drv path) := by
  refine (findDirentry_readOnly drv path).bind fun x => ?_
  simp only
  split_ifs
  · exact .fault _
  · exact .pure _

end ReadOnly

/-- On every volume a run from a fresh format reaches without deleting an empty directory through a dot
entry, a deletion that does not do so either takes away exactly one file or empty directory. -/
theorem run_deletes_one {ops : List FatOp} {rs : List (Except FileSystemError FatReply)} (h : Fresh p drv s)
    (hc : meets (exec drv p) (sparesDots drv) ops s = true) (hrun : runAll (exec drv p) ops s = .ok (rs,t)) {t₁ t₂ : Disk}
    (hid : findNode drv path t = .ok (.ok id,t₁)) (he : findDirentry drv path t = .ok (.ok (e,d),t₂))
    (hparts : pathParts path ≠ []) (hlabel : e.isVolumeId = false) (hop : sparesDots drv (.delete path) t = true) :
    DeletesOne drv t₁ id e d := by
  have G := h.geometry
  obtain ⟨ht,T,ho,hfill⟩ := h.run_keeps (I := fun _ T => Filled T) (fun _ _ hop => hop) h.filled
    (fun _ _ ho hi _ hch => hi.change ho.toSound hch) hc hrun
  obtain rfl := findNode_readOnly drv path _ _ _ hid
  obtain rfl := findDirentry_readOnly drv path _ _ _ he
  have hres := ((findDirentry_runs G ho.toSound path).returns ht he).1
  have hnode := ((findNode_runs G ho.toSound path).returns ht hid).1
  rw [← hres] at hnode
  cases hnode
  rw [Tree.resolve,if_neg (by simpa using hparts)] at hres
  obtain ⟨part,-,hf⟩ := walk_found ho.ok (.inl .root) hres.symm
  have hd := hf.attached.dir ho.ok
  refine ⟨fun hno => ?_,fun hdir hlive => delete_keeps G ht ho hf hdir hlive⟩
  have hdot : e.firstByte ≠ 0x2E := by
    intro hb
    have hdir := ((ho.ok.slot hd hf.mem.1).dot hf.mem.2 hb).2.1
    have hcdir := hf.dir ho hdir
    refine hno ⟨hdir,(containsLive_iff G ht ho hcdir).mpr ?_⟩
    simpa [sparesDots,he,reads_listed G ht ho hcdir,hb] using hop
  have hchild := isChild_of_valid hf.mem.2 hdot
  exact delete_deletes G ht ho hf hchild (hfill d hd e hf.mem.1 hchild hlabel) hno

/-- A test of the handle and the entry that a path leads to, which a trace evaluates. -/
def foundMeets (drv : Fat32Driver) (path : List Char) (test : FileNodeHandle → DirectoryEntry → Disk → Bool) (s : Disk) : Bool :=
  match findNode drv path s, findDirentry drv path s with
  | .ok (.ok id,t), .ok (.ok (e,_),_) => test id e t
  | _, _ => false

theorem found_of_meets {test : FileNodeHandle → DirectoryEntry → Disk → Bool} (h : foundMeets drv path test s = true) :
    ∃ id e d t t', findNode drv path s = .ok (.ok id,t) ∧ findDirentry drv path s = .ok (.ok (e,d),t') ∧ test id e t = true := by
  unfold foundMeets at h
  split at h
  · rename_i id t e d t' hid he
    exact ⟨id,e,d,t,t',hid,he,h⟩
  · cases h

theorem run_deletes_one_file : ∃ rs t id e d t₁ t₂,
    runAll (exec (tinyDriver 5) .release) [.createFile ['/'] ['F']] (tinyVolume 5) = .ok (rs,t) ∧
      findNode (tinyDriver 5) ['F'] t = .ok (.ok id,t₁) ∧ findDirentry (tinyDriver 5) ['F'] t = .ok (.ok (e,d),t₂) ∧
      DeletesOne (tinyDriver 5) t₁ id e d := by
  have htrace : ((runAll (exec (tinyDriver 5) .release) [.createFile ['/'] ['F']] (tinyVolume 5)).toOption.map fun x =>
      foundMeets (tinyDriver 5) ['F'] (fun _ e _ => !e.isVolumeId && e.firstByte != 0x2E) x.2) = some true := by decide +kernel
  have hdots : meets (exec (tinyDriver 5) .release) (sparesDots (tinyDriver 5)) [.createFile ['/'] ['F']] (tinyVolume 5) = true :=
    meets_of_forall fun op hop s => by rw [List.mem_singleton.mp hop]; rfl
  obtain ⟨rs,t,hrun,ht⟩ := runAll_of_view htrace
  obtain ⟨id,e,d,t₁,t₂,hid,he,ht⟩ := found_of_meets ht
  rw [Bool.and_eq_true,Bool.not_eq_true'] at ht
  have hop : sparesDots (tinyDriver 5) (.delete ['F']) t = true := by
    simp only [sparesDots,he,ht.2,Bool.true_or]
  exact ⟨rs,t,id,e,d,t₁,t₂,hrun,hid,he,run_deletes_one (tinyVolume_fresh .release (.inr rfl)) hdots hrun hid he (by decide) ht.1 hop⟩

/-- Once SUB has lost its cluster through its dot entry, its own deletion fails an assertion. -/
theorem dot_delete_breaks_delete : Fresh .dev smallDriver smallVolume ∧ ∃ rs t id e d t₁ t₂,
    runAll (exec smallDriver .dev) [.createDirectory ['/'] ['S','U','B'],.delete dotAlias] smallVolume = .ok (rs,t) ∧
      findNode smallDriver ['S','U','B'] t = .ok (.ok id,t₁) ∧ findDirentry smallDriver ['S','U','B'] t = .ok (.ok (e,d),t₂) ∧
      e.isVolumeId = false ∧ ¬ ContainsLive smallDriver t₁ e.getFirstCluster ∧ (∃ f, delete smallDriver id t₁ = .error f) ∧
      ¬ DeletesOne smallDriver t₁ id e d := by
  have htrace : ((runAll (exec smallDriver .dev) [.createDirectory ['/'] ['S','U','B'],.delete dotAlias]
      smallVolume).toOption.map fun x => foundMeets smallDriver ['S','U','B'] (fun id e t =>
        !e.isVolumeId && (listingMeets smallDriver e.getFirstCluster (fun entries => entries.all fun x => !x.isChild) t &&
          (delete smallDriver id t).toOption.isNone)) x.2) = some true := by decide +kernel
  obtain ⟨rs,t,hrun,ht⟩ := runAll_of_view htrace
  obtain ⟨id,e,d,t₁,t₂,hid,he,ht⟩ := found_of_meets ht
  rw [Bool.and_eq_true,Bool.and_eq_true,Bool.not_eq_true'] at ht
  obtain ⟨hlabel,hlist,hnone⟩ := ht
  have hlive : ¬ ContainsLive smallDriver t₁ e.getFirstCluster := by
    rintro ⟨entries,⟨u,hu⟩,x,hx,hc⟩
    obtain ⟨entries',⟨u',hu'⟩,hall⟩ := lists_of_meets hlist
    rw [hu] at hu'
    cases hu'
    have := List.all_eq_true.mp hall x hx
    rw [hc] at this
    cases this
  have hfault : ∃ f, delete smallDriver id t₁ = .error f := by
    cases hdel : delete smallDriver id t₁ with
    | error f => exact ⟨f,rfl⟩
    | ok x =>
      rw [hdel] at hnone
      cases hnone
  refine ⟨smallVolume_fresh .dev,rs,t,id,e,d,t₁,t₂,hrun,hid,he,hlabel,hlive,hfault,fun h => ?_⟩
  obtain ⟨f,hf⟩ := hfault
  obtain ⟨-,-,-,-,u,-,-,-,-,hdel,-⟩ := h.one fun hno => hlive hno.2
  rw [hf] at hdel
  cases hdel

end Fat32Driver
end MofuOS.Filesystem.Fat32
