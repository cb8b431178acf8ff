import MofuOS.Filesystem.Fat32.Resolve

/-! No cluster is lost: every used one is in the chain of the root or of a live entry that listings lead to
from the root. -/
namespace MofuOS.Filesystem.Fat32
open Lib Io
open Prog (liftO)

namespace Tree
variable {T T' : Tree} {d n o : Nat} {e : DirectoryEntry}

/-- The directories that the listings lead to from the root. -/
inductive Shown (T : Tree) : Nat → Prop where
  | root : Shown T 2
  | child {d : Nat} {e : DirectoryEntry} (h : Shown T d) (he : e ∈ listed (T.slots d)) (hc : e.isChild = true)
      (hd : e.isDirectory = true) : Shown T e.getFirstCluster

/-- The objects that the listings lead to. -/
def Named (T : Tree) (o : Nat) : Prop :=
  o = 2 ∨ ∃ d e, T.Shown d ∧ e ∈ listed (T.slots d) ∧ e.isChild = true ∧ e.getFirstCluster = o

/-- Of the objects with P, what the shown directories of T list of them T' lists as well. -/
def KeepsListed (P : Nat → Prop) (T T' : Tree) : Prop :=
  ∀ d e, T.Shown d → e ∈ listed (T.slots d) → e.isChild = true → P e.getFirstCluster →
    P d ∧ ∃ e' ∈ listed (T'.slots d), e'.isChild = true ∧ e'.getFirstCluster = e.getFirstCluster ∧
      e'.isDirectory = e.isDirectory

namespace KeepsListed
variable {P : Nat → Prop}

theorem shown (h : KeepsListed P T T') (hd : T.Shown d) (hp : P d) : T'.Shown d := by
  induction hd with
  | root => exact .root
  | child hd he hc hdir ih =>
    obtain ⟨hp',e',he',hc',hcl,hkind⟩ := h _ _ hd he hc hp
    rw [← hcl]
    exact .child (ih hp') he' hc' (hkind.trans hdir)

theorem named (h : KeepsListed P T T') (ho : T.Named o) (hp : P o) : T'.Named o := by
  rcases ho with rfl | ⟨d,e,hd,he,hc,rfl⟩
  · exact .inl rfl
  · obtain ⟨hp',e',he',hc',hcl,-⟩ := h d e hd he hc hp
    exact .inr ⟨d,e',h.shown hd hp',he',hc',hcl⟩

/-- Nothing is missed where the listings have only grown. -/
theorem of_subset (h : ∀ d e, T.Shown d → e ∈ listed (T.slots d) → e.isChild = true → e ∈ listed (T'.slots d)) :
    KeepsListed (fun _ => True) T T' :=
  fun d e hd he hc _ => ⟨trivial,e,h d e hd he hc,hc,rfl,rfl⟩

/-- Slot k is rewritten by an entry that still leads to its object, if that is one with P. -/
theorem setSlot {k : Nat} {e' : DirectoryEntry} (hk : (listed (T.slots d))[k]? = some e) (he : e'.isEmpty = false)
    (hsame : e.isChild = true → P e.getFirstCluster → e'.isChild = true ∧ e'.getFirstCluster = e.getFirstCluster ∧
      e'.isDirectory = e.isDirectory)
    (hp : ∀ d' x, T.Shown d' → x ∈ listed (T.slots d') → x.isChild = true → P x.getFirstCluster → P d') :
    KeepsListed P T (T.setSlot d k e') := by
  intro d' x hd' hx hc hpx
  refine ⟨hp d' x hd' hx hc hpx,?_⟩
  rw [setSlot_slots]
  by_cases hdd : d' = d
  · subst hdd
    obtain ⟨hslot,hempty⟩ := listed_getElem? hk
    rw [Function.update_self,listed_set hslot (he.trans hempty.symm)]
    obtain ⟨i,hi⟩ := List.getElem?_of_mem hx
    by_cases hik : k = i
    · subst hik
      rw [hk] at hi
      cases hi
      exact ⟨e',List.mem_set (List.getElem?_eq_some_iff.mp hk).1 _,hsame hc hpx⟩
    · refine ⟨x,List.mem_of_getElem? (i := i) ?_,hc,rfl,rfl⟩
      rwa [List.getElem?_set_ne hik]
  · rw [Function.update_of_ne hdd]
    exact ⟨x,hx,hc,rfl,rfl⟩

end KeepsListed

theorem Shown.attached (h : T.Shown d) : T.Attached d := by
  induction h with
  | root => exact .root
  | child _ he hc hd ih =>
    obtain ⟨i,hi⟩ := List.getElem?_of_mem he
    exact .child ih (List.mem_of_getElem? (listed_getElem? hi).1) hc hd

/-- A directory that is named is shown. -/
theorem Named.shown (h : T.Named d) (ho : Ok n T) (hd : T.Dir d) (h0 : d ≠ 0) : T.Shown d := by
  rcases h with rfl | ⟨d',e,hd',he,hc,rfl⟩
  · exact .root
  · obtain ⟨i,hi⟩ := List.getElem?_of_mem he
    have hslot := ho.slot (hd'.attached.dir ho) (List.mem_of_getElem? (listed_getElem? hi).1)
    exact .child hd' he hc ((hslot.child hc h0).kind.trans hd.2)

end Tree

namespace Fat32Driver
variable {drv : Fat32Driver} {p : Profile} {s t : Disk} {v w : FatView} {T T' : Tree} {c d k x : Nat} {e : DirectoryEntry}
  {id : FileNodeHandle} {name path : List Char} {attrs : UInt8}

/-- Every used cluster belongs to an object, and the listings lead to every object. -/
structure Accounted (drv : Fat32Driver) (v : FatView) (T : Tree) : Prop where
  covered : ∀ x, inVolume drv x = true → x ∉ freeClusters drv v → ∃ o, x ∈ T.chain o
  named : ∀ o, T.chain o ≠ [] → T.Named o

namespace Accounted

theorem shown (h : Accounted drv v T) (ho : Own drv v T) (hd : T.Dir d) : T.Shown d := by
  refine (h.named d hd.1).shown ho.ok hd fun h0 => ?_
  have := (inVolume_iff.mp (ho.stored.start_inVolume hd.1)).1
  omega

/-- Clusters taken from the free ones belong to an object that keeps its old ones. -/
private theorem covered_of_took {l xs : List Nat} (h : Accounted drv v T) (hfree : freeClusters drv v = xs ++ freeClusters drv w)
    (hxs : ∀ y ∈ xs, y ∈ l) (hold : ∀ y ∈ T.chain c, y ∈ l) (hx : inVolume drv x = true) (hused : x ∉ freeClusters drv w) :
    ∃ o, x ∈ Function.update T.chain c l o := by
  have hin : x ∈ l → ∃ o, x ∈ Function.update T.chain c l o := fun hl => ⟨c,by rwa [Function.update_self]⟩
  by_cases hxx : x ∈ xs
  · exact hin (hxs x hxx)
  · obtain ⟨o,ho⟩ := h.covered x hx fun hmem => by
      rw [hfree,List.mem_append] at hmem
      exact hmem.elim hxx hused
    by_cases hoc : o = c
    · exact hin (hold x (hoc ▸ ho))
    · exact ⟨o,by rwa [Function.update_of_ne hoc]⟩

private theorem named_update {l : List Nat} (h : Accounted drv v T) (hc : T.Named c)
    (hkeep : T.KeepsListed (fun _ => True) T') (o : Nat) (ho : Function.update T.chain c l o ≠ []) : T'.Named o := by
  by_cases hoc : o = c
  · exact hkeep.named (hoc ▸ hc) trivial
  · rw [Function.update_of_ne hoc] at ho
    exact hkeep.named (h.named o ho) trivial

theorem expanded (h : Accounted drv v T) (hd : T.Dir d) (hx : Expanded drv v T d w T') : Accounted drv w T' := by
  obtain ⟨x,rfl,hfree,-⟩ := hx.tree
  refine ⟨fun y hy hused => ?_,h.named_update (h.named d hd.1) (.of_subset fun d' e' _ he' _ => ?_)⟩
  · exact h.covered_of_took (hfree : freeClusters drv v = [x] ++ freeClusters drv w) (fun z hz => List.mem_append_right _ hz)
      (fun z hz => List.mem_append_left _ hz) hy hused
  · by_cases hdd : d' = d
    · subst hdd
      rwa [Tree.grow_slots,Function.update_self,unusedSlots,listed_append_unused]
    · rwa [Tree.grow_slots,Function.update_of_ne hdd]

theorem created (h : Accounted drv v T) (ho : Own drv v T) (hd : T.Dir d) (hc : Created drv v T d name attrs e w T')
    (he : e.isChild = true) : Accounted drv w T' := by
  obtain ⟨k',hnew⟩ := hc.newEntry hd
  have hempty : e.isEmpty = false := by
    rw [DirectoryEntry.isChild,Bool.and_eq_true] at he
    exact DirectoryEntry.isEmpty_of_valid he.1
  have hkeep : T.KeepsListed (fun _ => True) T' := .of_subset fun d' x hd' hx hcx => by
    by_cases hdd : d' = d
    · subst hdd
      rw [DirectoryEntry.isChild,Bool.and_eq_true] at hcx
      exact (hnew.inserted hempty).mem_of_live hx (DirectoryEntry.isDeleted_of_valid hcx.1)
    · rwa [hnew.elsewhere d' (hd'.attached.dir ho.ok).1 hdd]
  have hlisted : e ∈ listed (T'.slots d) := by
    obtain ⟨front,gap,back,rest,-,heq,-⟩ := hnew.inserted hempty
    rw [heq]
    exact List.mem_append_right _ List.mem_cons_self
  obtain ⟨k,u,T₁,hclaim,hfree,rfl,-⟩ := hc.place
  have h₁ : Accounted drv u T₁ ∧ ∀ o, T₁.chain o ≠ [] → T.chain o ≠ [] := by
    rcases hclaim.how with ⟨rfl,rfl,-⟩ | ⟨-,-,hexp⟩
    · exact ⟨h,fun _ ho => ho⟩
    · refine ⟨h.expanded hd hexp,fun o hob => ?_⟩
      obtain ⟨z,rfl,-⟩ := hexp.tree
      by_cases hod : o = d
      · exact hod ▸ hd.1
      · rwa [Tree.grow_chain,Function.update_of_ne hod] at hob
  have hnone := hclaim.own.stored.free_no_object (mem_freeClusters.mp (hfree ▸ List.mem_cons_self)).2
  refine ⟨fun x hx hused => ?_,fun o hob => ?_⟩
  · refine h₁.1.covered_of_took (hfree : freeClusters drv u = [e.getFirstCluster] ++ freeClusters drv w) (fun y hy => hy) (fun y hy => ?_) hx hused
    rw [hnone] at hy
    cases hy
  · by_cases hoe : o = e.getFirstCluster
    · exact .inr ⟨d,e,hkeep.shown (h.shown ho hd) trivial,hlisted,he,hoe.symm⟩
    · rw [Tree.setSlot_chain,Tree.add_chain,Function.update_of_ne hoe] at hob
      exact hkeep.named (h.named o (h₁.2 o hob)) trivial

theorem written {offset : Nat} {data : List UInt8} (h : Accounted drv v T) (hs : Sound drv v T)
    (hw : Written drv p v T d e offset data w T') : Accounted drv w T' := by
  have grown : ∀ {k l'}, FileAt T d k e → Took drv v (T.chain e.getFirstCluster) w l' → ∀ {T'},
      T'.chain = Function.update T.chain e.getFirstCluster l' → T.KeepsListed (fun _ => True) T' → Accounted drv w T' := by
    rintro k l' hf ⟨xs,rfl,hfree,-⟩ T' hchain hkeep
    have hch := (hs.ok.slot hf.dir (List.mem_of_getElem? hf.getElem?.1)).child hf.child hf.cluster
    refine ⟨fun x hx hused => ?_,?_⟩
    · rw [hchain]
      exact h.covered_of_took hfree (fun y hy => List.mem_append_right _ hy) (fun y hy => List.mem_append_left _ hy) hx hused
    · rw [hchain]
      exact h.named_update (h.named _ hch.object) hkeep
  cases hw with
  | same => exact h
  | full hf _ hput _ => exact grown hf hput.took rfl (.of_subset fun _ _ _ hx _ => hx)
  | wrote hf _ _ took _ =>
    refine grown hf took rfl (Tree.KeepsListed.setSlot hf.slot ?_ (fun hc _ => ⟨?_,?_,?_⟩) fun _ _ _ _ _ _ => trivial)
    · refine DirectoryEntry.isEmpty_of_valid ?_
      rw [isValid_grown]
      exact hf.getElem?.2
    · rwa [isChild_grown]
    · rw [getFirstCluster_grown]
    · rw [isDirectory_grown]

theorem deleted (h : Accounted drv v T) (ho : Own drv v T) (hx : Deleted drv v T d c w T') : Accounted drv w T' := by
  obtain ⟨k,e,hk,-,rfl,htree⟩ := hx.slot
  have hkeep : T.KeepsListed (· ≠ e.getFirstCluster) (T.setSlot d k e.markDeleted) := by
    refine .setSlot hk rfl (fun _ hne => absurd rfl hne) fun d' x hd' hlist hc _ hdc => ?_
    have hbare := hx.bare (hdc ▸ hd'.attached.dir ho.ok)
    rw [← hdc,hasValidEntries,List.any_eq_false] at hbare
    exact hbare x hlist hc
  have hnone : e.getFirstCluster = 0 → T.chain e.getFirstCluster = [] := by
    intro h0
    by_contra hne
    have := (inVolume_iff.mp (ho.stored.start_inVolume hne)).1
    omega
  have hchain : T'.chain = Function.update T.chain e.getFirstCluster [] := by
    rw [htree]
    split_ifs with h0
    · rw [Tree.setSlot_chain,← hnone h0,Function.update_eq_self]
    · rfl
  have hkeep' : T.KeepsListed (· ≠ e.getFirstCluster) T' := by
    rw [htree]
    split_ifs
    · exact hkeep
    · exact hkeep
  refine ⟨fun x hin hused => ?_,fun o hob => ?_⟩
  · have hfat := hx.freed x
    have hne : w.fat x ≠ 0 := fun h0 => hused (mem_freeClusters.mpr ⟨hin,h0⟩)
    split_ifs at hfat with hmem
    · exact absurd hfat hne
    · obtain ⟨o,hox⟩ := h.covered x hin fun hfree => hne (hfat.trans (mem_freeClusters.mp hfree).2)
      refine ⟨o,?_⟩
      rwa [hchain,Function.update_of_ne fun hoc => hmem (by rwa [← hoc])]
  · rw [hchain] at hob
    by_cases hoc : o = e.getFirstCluster
    · rw [hoc,Function.update_self] at hob
      exact absurd rfl hob
    · rw [Function.update_of_ne hoc] at hob
      exact hkeep'.named (h.named o hob) hoc

end Accounted

/-- The entry of a new name is live: its first byte is neither the end mark nor the deletion mark. -/
def bornLive : FatOp → Bool
  | .createFile _ name | .createDirectory _ name =>
    match DirectoryEntry.createEmpty.setFilename name with
    | .ok e => e.isValid
    | .error _ => true
  | _ => true

theorem Created.isChild (hc : Created drv v T d name attrs e w T')
    (hborn : ∀ new, DirectoryEntry.createEmpty.setFilename name = .ok new → new.isValid = true) : e.isChild = true := by
  obtain ⟨new,hset,-,hbyte,-⟩ := newEntry_fields hc.entry
  have hlt : e.getFirstCluster < 2^32 := by
    rw [DirectoryEntry.getFirstCluster_eq]
    have := e.firstClusterHigh.toNat_lt
    have := e.firstClusterLow.toNat_lt
    omega
  obtain ⟨e',hentry,-,-,-,hdot⟩ := newEntry_of_valid hc.valid attrs hlt
  obtain rfl := Except.ok.inj (hc.entry.symm.trans hentry)
  refine isChild_of_valid ?_ hdot
  rw [DirectoryEntry.isValid,DirectoryEntry.isEmpty,DirectoryEntry.isDeleted,hbyte]
  exact hborn new hset

theorem Change.accounted {op : FatOp} (h : Accounted drv v T) (ho : Own drv v T) (hop : bornLive op = true)
    (hch : Change drv p v T op w T') : Accounted drv w T' := by
  have born : ∀ {name : List Char}, (match DirectoryEntry.createEmpty.setFilename name with
      | .ok e => e.isValid
      | .error _ => true) = true → ∀ new, DirectoryEntry.createEmpty.setFilename name = .ok new → new.isValid = true := by
    intro name hop new hset
    rwa [hset] at hop
  cases hch with
  | same => exact h
  | refused hd href =>
    cases href with
    | early => exact h
    | full => exact h
    | expanded _ hexp => exact h.expanded hd hexp
  | createdFile _ _ hd hc => exact h.created ho hd hc (hc.isChild (born hop))
  | createdDirectory _ _ hd hc => exact h.created ho hd hc (hc.isChild (born hop))
  | written _ hw => exact h.written ho.toSound hw
  | deleted hd hx => exact h.deleted ho hx

/-- Every used cluster is in the chain of the root or of a live entry that listings lead to. -/
def NoLeak (drv : Fat32Driver) (s : Disk) : Prop :=
  ∀ x, inVolume drv x = true → (viewOf drv s).fat x ≠ 0 →
    (∃ l, GoodChain drv s drv.bootSector.rootCluster l ∧ x ∈ l) ∨
      ∃ d k e l, LiveEntry drv s d k e ∧ GoodChain drv s e.getFirstCluster l ∧ x ∈ l

section Listings
variable (G : Geometry drv) (hs : Holds drv s)
include G hs

theorem Sound.reachable_of_shown (h : Sound drv (viewOf drv s) T) (hd : T.Shown d) : Reachable drv s d := by
  induction hd with
  | root =>
    rw [← G.rootCluster]
    exact .root
  | child hd he hc hdir ih => exact .child ih (lists_listed G hs h (hd.attached.dir h.ok)) he hc hdir

theorem Accounted.noLeak (h : Accounted drv (viewOf drv s) T) (hsound : Sound drv (viewOf drv s) T) : NoLeak drv s := by
  intro x hx hused
  obtain ⟨o,hox⟩ := h.covered x hx fun hfree => hused (mem_freeClusters.mp hfree).2
  have hne : T.chain o ≠ [] := List.ne_nil_of_mem hox
  have hgood := goodChain_of_object hsound hne
  rcases h.named o hne with rfl | ⟨d,e,hd,he,hc,rfl⟩
  · rw [← G.rootCluster] at hgood
    exact .inl ⟨_,hgood,G.rootCluster ▸ hox⟩
  · obtain ⟨k,hk⟩ := List.getElem?_of_mem he
    have hin := inVolume_iff.mp (hsound.stored.start_inVolume hne)
    refine .inr ⟨d,k,e,_,⟨hsound.reachable_of_shown G hs hd,?_,hc,by omega⟩,hgood,hox⟩
    exact ⟨_,lists_listed G hs hsound (hd.attached.dir hsound.ok),hk⟩

end Listings

theorem rootTree_accounted (hfree : ∀ x, 2 < x → inVolume drv x = true → (viewOf drv s).fat x = 0) :
    Accounted drv (viewOf drv s) (rootTree ((viewOf drv s).slots [2])) := by
  refine ⟨fun x hx hused => ⟨2,?_⟩,fun o ho => ?_⟩
  · rw [rootTree_chain,Function.update_self,List.mem_singleton]
    by_contra hne
    have := inVolume_iff.mp hx
    exact hused (mem_freeClusters.mpr ⟨hx,hfree x (by omega) hx⟩)
  · refine .inl ?_
    by_contra hne
    rw [rootTree_chain,Function.update_of_ne hne] at ho
    exact ho rfl

/-- From a fresh format that has used no more than the root, no run loses a cluster, whatever its calls return, if
it deletes no directory through a dot entry and every new name is stored as a live one. -/
theorem run_noLeak {ops : List FatOp} {rs : List (Except FileSystemError FatReply)} (h : Fresh p drv s)
    (hfree : ∀ x, 2 < x → inVolume drv x = true → (viewOf drv s).fat x = 0)
    (hc : meets (exec drv p) (fun op s => sparesDots drv op s && bornLive op) ops s = true)
    (hrun : runAll (exec drv p) ops s = .ok (rs,t)) : NoLeak drv t := by
  obtain ⟨ht,T,ho,hacc⟩ := h.run_keeps (I := Accounted drv) (fun op s hop => (Bool.and_eq_true .. ▸ hop).1) (rootTree_accounted hfree)
    (fun hop _ ho hi _ hch => hch.accounted hi ho (Bool.and_eq_true .. ▸ hop).2) hc hrun
  exact hacc.noLeak h.geometry ht ho.toSound

/-- A file is created and deleted, and another one takes its cluster. -/
theorem run_noLeak_reused : ∃ rs t, runAll (exec (tinyDriver 5) .release)
    [.createFile ['/'] ['F'],.delete ['/','F'],.createFile ['/'] ['G']] (tinyVolume 5) = .ok (rs,t) ∧ NoLeak (tinyDriver 5) t := by
  have hfresh := tinyVolume_fresh .release (.inr (rfl : 5 = 5))
  have hfree : ∀ x, 2 < x → inVolume (tinyDriver 5) x = true → (viewOf (tinyDriver 5) (tinyVolume 5)).fat x = 0 := by
    intro x hx hin
    have hlt : x < 5 := (inVolume_iff.mp hin).2
    obtain rfl | rfl : x = 3 ∨ x = 4 := by omega
    · decide +kernel
    · decide +kernel
  have htrace : (meets (exec (tinyDriver 5) .release) (fun op s => sparesDots (tinyDriver 5) op s && bornLive op)
      [.createFile ['/'] ['F'],.delete ['/','F'],.createFile ['/'] ['G']] (tinyVolume 5),
      (runAll (exec (tinyDriver 5) .release) [.createFile ['/'] ['F'],.delete ['/','F'],.createFile ['/'] ['G']]
        (tinyVolume 5)).toOption.map fun _ => true) = (true,some true) := by decide +kernel
  obtain ⟨hc,hseen⟩ := Prod.mk.inj htrace
  obtain ⟨rs,t,hrun,-⟩ := runAll_of_view hseen
  exact ⟨rs,t,hrun,run_noLeak hfresh hfree hc hrun⟩

end Fat32Driver
end MofuOS.Filesystem.Fat32
