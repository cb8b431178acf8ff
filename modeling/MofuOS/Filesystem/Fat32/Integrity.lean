import MofuOS.Filesystem.Fat32.Fresh

/-! The FAT chains of the live entries: each ends inside the volume and they are disjoint, in
every state a run from a fresh format reaches. -/
namespace MofuOS.Filesystem.Fat32
open Lib Io

namespace Fat32Driver
variable {drv : Fat32Driver} {p : Profile} {s t : Disk} {T : Tree} {c d d' k k' : Nat} {e e' : DirectoryEntry}
  {l l' : List Nat} {entries : List DirectoryEntry}

/-- The driver reads these entries in the directory at d. -/
def Lists (drv : Fat32Driver) (s : Disk) (d : Nat) (entries : List DirectoryEntry) : Prop :=
  ∃ t, readDirectoryEntries drv d s = .ok (.ok entries,t)

/-- A test of the entries that the driver reads, which a trace evaluates. -/
def listingMeets (drv : Fat32Driver) (d : Nat) (test : List DirectoryEntry → Bool) (s : Disk) : Bool :=
  match readDirectoryEntries drv d s with
  | .ok (.ok entries,_) => test entries
  | _ => false

theorem lists_of_meets {test : List DirectoryEntry → Bool} (h : listingMeets drv d test s = true) :
    ∃ entries, Lists drv s d entries ∧ test entries = true := by
  unfold listingMeets at h
  split at h
  · rename_i entries t hread
    exact ⟨entries,⟨t,hread⟩,h⟩
  · cases h

/-- The directories that live entries lead to from the root. -/
inductive Reachable (drv : Fat32Driver) (s : Disk) : Nat → Prop where
  | root : Reachable drv s drv.bootSector.rootCluster
  | child {d : Nat} {e : DirectoryEntry} {entries : List DirectoryEntry} (h : Reachable drv s d) (hl : Lists drv s d entries)
      (he : e ∈ entries) (hc : e.isChild = true) (hd : e.isDirectory = true) : Reachable drv s e.getFirstCluster

/-- Slot k of a reachable directory holds the live entry e, which is no dot entry and has clusters. -/
structure LiveEntry (drv : Fat32Driver) (s : Disk) (d k : Nat) (e : DirectoryEntry) : Prop where
  reachable : Reachable drv s d
  slot : ∃ entries, Lists drv s d entries ∧ entries[k]? = some e
  child : e.isChild = true
  cluster : e.getFirstCluster ≠ 0

/-- The FAT links from c lead through l, inside the volume, to an end mark. -/
structure GoodChain (drv : Fat32Driver) (s : Disk) (c : Nat) (l : List Nat) : Prop where
  linked : LinkedChain (viewOf drv s).next c l
  inside : ∀ x ∈ l, 2 ≤ x ∧ x < drv.maxCluster
  nodup : l.Nodup
  used : ∀ x ∈ l, (viewOf drv s).fat x ≠ 0
  ends : ∀ x, l.getLast? = some x → fatEntryReservedBegin ≤ (viewOf drv s).fat x

structure ChainIntegrity (drv : Fat32Driver) (s : Disk) : Prop where
  root : ∃ l, GoodChain drv s drv.bootSector.rootCluster l
  live : ∀ d k e, LiveEntry drv s d k e → ∃ l, GoodChain drv s e.getFirstCluster l
  apart : ∀ d k e d' k' e' l l', LiveEntry drv s d k e → LiveEntry drv s d' k' e' → (d,k) ≠ (d',k') →
    GoodChain drv s e.getFirstCluster l → GoodChain drv s e'.getFirstCluster l' → l.Disjoint l'
  rootApart : ∀ d k e l l', LiveEntry drv s d k e → GoodChain drv s drv.bootSector.rootCluster l →
    GoodChain drv s e.getFirstCluster l' → l.Disjoint l'

section Sound
variable (G : Geometry drv) (hs : Holds drv s) (h : Sound drv (viewOf drv s) T)
include G hs h

theorem Lists.eq_listed (hl : Lists drv s d entries) (hd : T.Dir d) : entries = listed (T.slots d) := by
  obtain ⟨t,ht⟩ := hl
  have := ((h.readDirectoryEntries_runs G hd).returns hs ht).1
  exact Except.ok.inj this

theorem lists_listed (hd : T.Dir d) : Lists drv s d (listed (T.slots d)) := by
  obtain ⟨t,ht,-⟩ := h.readDirectoryEntries_runs G hd s hs rfl
  exact ⟨t,ht⟩

theorem Reachable.attached (hr : Reachable drv s d) : T.Attached d := by
  induction hr with
  | root =>
    rw [G.rootCluster]
    exact .root
  | child hr hl he hc hd ih =>
    have heq := hl.eq_listed G hs h (ih.dir h.ok)
    obtain ⟨k,hk⟩ := List.getElem?_of_mem (heq ▸ he)
    exact .child ih (List.mem_of_getElem? (listed_getElem? hk).1) hc hd

/-- A live entry in the tree the volume stores. -/
theorem LiveEntry.stored (hl : LiveEntry drv s d k e) :
    T.Attached d ∧ (T.slots d)[k]? = some e ∧ Tree.ChildOk drv.clusterSize T d e := by
  have hatt := hl.reachable.attached G hs h
  obtain ⟨entries,hlist,hk⟩ := hl.slot
  rw [hlist.eq_listed G hs h (hatt.dir h.ok)] at hk
  have hslot := (listed_getElem? hk).1
  exact ⟨hatt,hslot,(h.ok.slot (hatt.dir h.ok) (List.mem_of_getElem? hslot)).child hl.child hl.cluster⟩

theorem LiveEntry.fileAt (hl : LiveEntry drv s d k e) (ho : Own drv (viewOf drv s) T) (hf : e.isDirectory = false) :
    FileAt T d k e := by
  have hatt := hl.reachable.attached G hs h
  obtain ⟨entries,hlist,hk⟩ := hl.slot
  rw [hlist.eq_listed G hs h (hatt.dir h.ok)] at hk
  exact ⟨ho.leads hatt hk hl.child hl.cluster,hatt.dir h.ok,hl.child,hf,hl.cluster⟩

/-- Two live entries with one cluster are in one slot. -/
theorem LiveEntry.same (he : LiveEntry drv s d k e) (he' : LiveEntry drv s d' k' e')
    (heq : e.getFirstCluster = e'.getFirstCluster) : d = d' ∧ k = k' ∧ e = e' := by
  obtain ⟨hatt,hslot,hch⟩ := he.stored G hs h
  obtain ⟨-,hslot',hch'⟩ := he'.stored G hs h
  obtain rfl : d = d' := by rw [← hch.parent,heq,hch'.parent]
  obtain rfl := h.ok.unique (hatt.dir h.ok) hslot hslot' he.child he'.child heq he.cluster
  rw [hslot] at hslot'
  exact ⟨rfl,rfl,Option.some.inj hslot'⟩

omit G hs in
theorem goodChain_of_object (hc : T.chain c ≠ []) : GoodChain drv s c (T.chain c) := by
  have hch := h.stored.chained hc
  refine ⟨hch.linked,fun x hx => inVolume_iff.mp (hch.inside x hx),hch.linked.nodup,fun x => hch.fat_ne_zero,
    fun x hx => ?_⟩
  have hnone := hch.linked.getLast?_link hx
  rw [FatView.next] at hnone
  split_ifs at hnone with hend
  exact hend

omit G hs in
theorem GoodChain.eq_chain (hl : GoodChain drv s c l) (hc : T.chain c ≠ []) : l = T.chain c :=
  hl.linked.unique (h.stored.chained hc).linked

theorem Sound.chainIntegrity : ChainIntegrity drv s := by
  have hroot := h.ok.root.1
  refine ⟨⟨T.chain 2,?_⟩,fun d k e hl => ⟨T.chain e.getFirstCluster,?_⟩,fun d k e d' k' e' l l' he he' hne hl hl' x hx hx' => ?_,
    fun d k e l l' he hl hl' x hx hx' => ?_⟩
  · rw [G.rootCluster]
    exact goodChain_of_object h hroot
  · exact goodChain_of_object h (hl.stored G hs h).2.2.object
  · -- a shared cluster makes the two entries name one object, so they are in one slot
    obtain ⟨-,-,hch⟩ := he.stored G hs h
    obtain ⟨-,-,hch'⟩ := he'.stored G hs h
    rw [hl.eq_chain h hch.object] at hx
    rw [hl'.eq_chain h hch'.object] at hx'
    obtain ⟨rfl,rfl,-⟩ := he.same G hs h he' (h.stored.forest.disjoint _ _ x hx hx')
    exact hne rfl
  · obtain ⟨-,-,hch⟩ := he.stored G hs h
    rw [G.rootCluster] at hl
    rw [hl.eq_chain h hroot] at hx
    rw [hl'.eq_chain h hch.object] at hx'
    exact hch.notRoot (h.stored.forest.disjoint _ _ x hx hx').symm

end Sound

/-- From a fresh format, every run that does not delete through a dot entry a directory that lists
nothing keeps the chains of the live entries whole and apart. -/
theorem run_chainIntegrity {ops : List FatOp} {rs : List (Except FileSystemError FatReply)} (h : Fresh p drv s)
    (hc : meets (exec drv p) (sparesDots drv) ops s = true) (hrun : runAll (exec drv p) ops s = .ok (rs,t)) :
    ChainIntegrity drv t := by
  obtain ⟨ht,T,ho⟩ := h.run_inOrder hc hrun
  exact ho.toSound.chainIntegrity h.geometry ht

def growingRun : List FatOp :=
  [.createDirectory ['/'] ['S','U','B'],.createFile ['S','U','B'] ['F'],.write ['S','U','B','/','F'] 600 ⟨[1,2,3],by decide⟩,
    .createFile ['/'] ['X']]

theorem run_chainIntegrity_growing : ∃ rs t, runAll (exec smallDriver .release) growingRun smallVolume = .ok (rs,t) ∧
    ChainIntegrity smallDriver t := by
  have hc : meets (exec smallDriver .release) (sparesDots smallDriver) growingRun smallVolume = true := by
    refine meets_of_forall fun op hop s => ?_
    simp only [growingRun,List.mem_cons,List.not_mem_nil,or_false] at hop
    rcases hop with rfl | rfl | rfl | rfl <;> rfl
  obtain ⟨rs,t,hrun,-⟩ := (smallVolume_fresh .release).run_returns hc
  exact ⟨rs,t,hrun,run_chainIntegrity (smallVolume_fresh .release) hc hrun⟩

/-- The path of a character whose low byte is a dot, with an extension of zero bytes: it names the
dot entry of SUB, which this driver writes with such an extension. -/
def dotAlias : List Char := ['S','U','B','/',Char.ofNat 0x12E,'.',Char.ofNat 0,Char.ofNat 0,Char.ofNat 0]

/-- Through its dot entry SUB gives up its cluster, while the entry of SUB stays live. -/
theorem dot_delete_breaks_chain : Fresh .dev smallDriver smallVolume ∧
    ∃ rs t, runAll (exec smallDriver .dev) [.createDirectory ['/'] ['S','U','B'],.delete dotAlias] smallVolume = .ok (rs,t) ∧
      ¬ ChainIntegrity smallDriver t := by
  have htrace : ((runAll (exec smallDriver .dev) [.createDirectory ['/'] ['S','U','B'],.delete dotAlias]
      smallVolume).toOption.map fun x =>
        listingMeets smallDriver 2 (fun entries => entries[0]?.any fun e =>
          e.isChild && e.getFirstCluster == 4 && fatOf smallDriver x.2.data 4 == 0) x.2) = some true := by decide +kernel
  obtain ⟨rs,t,hrun,ht⟩ := runAll_of_view htrace
  refine ⟨smallVolume_fresh .dev,rs,t,hrun,fun h => ?_⟩
  obtain ⟨entries,hlist,ht⟩ := lists_of_meets ht
  obtain ⟨e,he,ht⟩ := (Option.any_eq_true ..).mp ht
  rw [Bool.and_eq_true,Bool.and_eq_true,beq_iff_eq,beq_iff_eq] at ht
  obtain ⟨⟨hchild,hcl⟩,hfree⟩ := ht
  have hlive : LiveEntry smallDriver t 2 0 e := ⟨.root,⟨entries,hlist,he⟩,hchild,by rw [hcl]; decide⟩
  obtain ⟨l,hl⟩ := h.live 2 0 e hlive
  have hmem := hl.linked.start_mem
  rw [hcl] at hmem
  exact hl.used 4 hmem hfree

end Fat32Driver
end MofuOS.Filesystem.Fat32
