import MofuOS.Filesystem.Fat32.FileSize

/-! Operations that run out of space. Nothing is undone: the clusters that were still free stay with
the directory or file that asked for more. -/
namespace MofuOS.Filesystem.Fat32
open Lib Io

namespace Fat32Driver
variable {drv : Fat32Driver} {p : Profile} {s t u : Disk} {v w : FatView} {T T' : Tree} {c d k n offset q : Nat} {e : DirectoryEntry}
  {id : FileNodeHandle} {a attrs : UInt8} {entries : List DirectoryEntry} {data : ByteSlice} {bytes : List UInt8}
  {name : List Char} {l l' xs : List Nat}

/-- The free clusters, the chains, the slots of the directories and the bytes of the files are the same. -/
structure Unchanged (drv : Fat32Driver) (s t : Disk) : Prop where
  free : freeClusters drv (viewOf drv t) = freeClusters drv (viewOf drv s)
  chains : ∀ c l, GoodChain drv t c l ↔ GoodChain drv s c l
  slots : ∀ d l, Reachable drv s d → GoodChain drv s d l → (viewOf drv t).slots l = (viewOf drv s).slots l
  files : ∀ d k e l, LiveEntry drv s d k e → e.isDirectory = false → GoodChain drv s e.getFirstCluster l →
    ((viewOf drv t).contents l).take e.fileSize.toNat = ((viewOf drv s).contents l).take e.fileSize.toNat

/-- What running out of space leaves: all clusters that were free have been zeroed and linked behind the
chain from c, as many of the bytes as that chain holds are put at the offset, every directory lists the
same entries, and every other object keeps its chain and bytes. -/
structure Absorbed (drv : Fat32Driver) (s t : Disk) (c offset : Nat) (bytes : List UInt8) : Prop where
  full : freeClusters drv (viewOf drv t) = []
  chain : ∀ l l', GoodChain drv s c l → l' = l ++ freeClusters drv (viewOf drv s) → GoodChain drv t c l' ∧
    ∃ m, (viewOf drv t).contents l' = overwrite ((viewOf drv s).contents l ++ List.replicate m 0) offset
      (bytes.take (l'.length * drv.clusterSize - offset))
  lists : ∀ d entries, Reachable drv s d → Lists drv s d entries → Lists drv t d entries
  others : ∀ d k e l, LiveEntry drv s d k e → e.getFirstCluster ≠ c → GoodChain drv s e.getFirstCluster l →
    GoodChain drv t e.getFirstCluster l ∧ (viewOf drv t).contents l = (viewOf drv s).contents l
  root : ∀ l, drv.bootSector.rootCluster ≠ c → GoodChain drv s drv.bootSector.rootCluster l →
    GoodChain drv t drv.bootSector.rootCluster l ∧ (viewOf drv t).contents l = (viewOf drv s).contents l

/-- One cluster is free, and directory d has no deleted slot that a new entry could go to: the directory
takes the cluster, and none is left for the new object. -/
def TakesLast (drv : Fat32Driver) (s : Disk) (d : Nat) : Prop :=
  (freeClusters drv (viewOf drv s)).length = 1 ∧ ∀ entries, Lists drv s d entries → ∀ e ∈ entries, e.isValid = true

/-- Only the object c has changed, and only by clusters behind its chain and the bytes of its chain. -/
structure Stretched (drv : Fat32Driver) (T : Tree) (v : FatView) (c : Nat) (xs : List Nat) (w : FatView) (T' : Tree) : Prop where
  sound : Sound drv w T'
  own : T'.chain c = T.chain c ++ xs
  others : ∀ x, x ≠ c → T'.chain x = T.chain x
  dirs : ∀ d, T.Dir d → T'.Dir d ∧ listed (T'.slots d) = listed (T.slots d)
  frame : ∀ y, y ∉ T'.chain c → w.data y = v.data y

theorem Expanded.stretched (h : Expanded drv v T d w T') (hs : Stored drv v T) : ∃ x, freeClusters drv v = x :: freeClusters drv w ∧
    Stretched drv T v d [x] w T' ∧ w.contents (T'.chain d) = v.contents (T.chain d) ++ List.replicate drv.clusterSize 0 := by
  have hown := h.own
  obtain ⟨x,rfl,hfree,hzero,hframe⟩ := h.tree
  have hx0 := (mem_freeClusters.mp (hfree ▸ List.mem_cons_self)).2
  have hchain : (T.grow d x (unusedSlots drv)).chain d = T.chain d ++ [x] := Function.update_self ..
  have hold : w.contents (T.chain d) = v.contents (T.chain d) :=
    FatView.contents_congr fun y hy => hframe y fun e => hs.free_unowned hx0 d (e ▸ hy)
  refine ⟨x,hfree,⟨hown.toSound,hchain,fun y hy => Function.update_of_ne hy ..,fun d' hd' => ⟨?_,?_⟩,fun y hy => ?_⟩,?_⟩
  · exact ⟨(Tree.grow_extends T d x _ d' hd'.1).1,hd'.2⟩
  · by_cases hdd : d' = d
    · subst hdd
      rw [Tree.grow_slots,Function.update_self,unusedSlots,listed_append_unused]
    · rw [Tree.grow_slots,Function.update_of_ne hdd]
  · exact hframe y fun hyx => hy (hchain ▸ hyx ▸ List.mem_append_right _ List.mem_cons_self)
  · rw [FatView.contents] at hold ⊢
    rw [hchain,List.flatMap_append,hold,List.flatMap_cons,hzero,List.flatMap_nil,List.append_nil]

theorem Put.stretched (h : Put drv T c offset bytes v (T.chain c) w l') (hf : T.isDir c = false) :
    ∃ xs, freeClusters drv v = xs ++ freeClusters drv w ∧ Stretched drv T v c xs w (T.withChain c l') := by
  have hchain : (T.withChain c l').chain c = l' := Function.update_self ..
  obtain ⟨xs,hl,hfree,-⟩ := h.took
  refine ⟨xs,hfree,h.sound,hchain.trans hl,fun y hy => Function.update_of_ne hy ..,fun d hd => ?_,fun y hy => ?_⟩
  · exact ⟨(Tree.dir_withChain hf).mpr hd,rfl⟩
  · exact h.frame y (hchain ▸ hy)

section Volumes
variable (G : Geometry drv) (hs : Holds drv s) (ht : Holds drv t) (h : Sound drv (viewOf drv s) T)

/-- An object other than the stretched one keeps its chain and its bytes. -/
private theorem Stretched.other (hst : Stretched drv T v c xs (viewOf drv t) T') {o : Nat} (ho : T.chain o ≠ []) (hne : o ≠ c) :
    GoodChain drv t o (T.chain o) ∧ (viewOf drv t).contents (T.chain o) = v.contents (T.chain o) := by
  have hgood := goodChain_of_object hst.sound (c := o) (by rwa [hst.others o hne])
  rw [hst.others o hne] at hgood
  refine ⟨hgood,FatView.contents_congr fun y hy => hst.frame y fun hyc => hne ?_⟩
  exact hst.sound.stored.forest.disjoint o c y (by rwa [hst.others o hne]) hyc

include G hs ht h

theorem Stretched.absorbed (hst : Stretched drv T (viewOf drv s) c xs (viewOf drv t) T') (hc : T.chain c ≠ [])
    (hfree : freeClusters drv (viewOf drv s) = xs ++ freeClusters drv (viewOf drv t))
    (hfull : freeClusters drv (viewOf drv t) = []) {m : Nat}
    (hcont : (viewOf drv t).contents (T'.chain c) = overwrite ((viewOf drv s).contents (T.chain c) ++ List.replicate m 0) offset
      (bytes.take ((T'.chain c).length * drv.clusterSize - offset))) : Absorbed drv s t c offset bytes := by
  rw [hfull,List.append_nil] at hfree
  refine ⟨hfull,fun l l' hl hl' => ?_,fun x entries hx hlist => ?_,fun d' k' e' l hlive hne hl => ?_,fun l hne hl => ?_⟩
  · have hown : T'.chain c = l' := by rw [hst.own,hl',hl.eq_chain h hc,hfree]
    have hgood := goodChain_of_object hst.sound (c := c) (by rw [hst.own]; simp [hc])
    rw [hown] at hgood hcont
    exact ⟨hgood,m,by rw [hl.eq_chain h hc]; exact hcont⟩
  · obtain ⟨hdir,heq⟩ := hst.dirs x ((hx.attached G hs h).dir h.ok)
    rw [hlist.eq_listed G hs h ((hx.attached G hs h).dir h.ok),← heq]
    exact lists_listed G ht hst.sound hdir
  · obtain ⟨-,-,hch⟩ := hlive.stored G hs h
    rw [hl.eq_chain h hch.object]
    exact hst.other hch.object hne
  · rw [G.rootCluster] at hne hl ⊢
    rw [hl.eq_chain h h.ok.root.1]
    exact hst.other h.ok.root.1 hne

omit ht in
/-- An object that has not grown, with the same bytes or, in a file, with the same bytes up to its size. -/
theorem Stretched.unchanged (hst : Stretched drv T (viewOf drv s) c [] (viewOf drv t) T')
    (hdir : T.isDir c = true → (viewOf drv t).contents (T.chain c) = (viewOf drv s).contents (T.chain c))
    (hfat : (viewOf drv t).fat = (viewOf drv s).fat) (hbytes : ∀ d k e, LiveEntry drv s d k e → e.getFirstCluster = c →
      ((viewOf drv t).contents (T.chain c)).take e.fileSize.toNat = ((viewOf drv s).contents (T.chain c)).take e.fileSize.toNat) :
    Unchanged drv s t := by
  have hnext : (viewOf drv t).next = (viewOf drv s).next := by
    funext y
    rw [FatView.next,FatView.next,hfat]
  refine ⟨freeClusters_congr fun y _ => by rw [hfat],fun o l => ?_,fun x l hx hl => ?_,fun d' k' e' l hlive _ hl => ?_⟩
  · constructor <;> rintro ⟨hlinked,hin,hnd,hused,hends⟩
    · exact ⟨hnext ▸ hlinked,hin,hnd,hfat ▸ hused,hfat ▸ hends⟩
    · exact ⟨hnext.symm ▸ hlinked,hin,hnd,hfat.symm ▸ hused,hfat.symm ▸ hends⟩
  · have hd := (hx.attached G hs h).dir h.ok
    have hcont : (viewOf drv t).contents (T.chain x) = (viewOf drv s).contents (T.chain x) := by
      by_cases hne : x = c
      · subst hne
        exact hdir hd.2
      · exact (hst.other hd.1 hne).2
    rw [hl.eq_chain h hd.1,FatView.slots,FatView.slots,hcont]
  · obtain ⟨-,-,hch⟩ := hlive.stored G hs h
    rw [hl.eq_chain h hch.object]
    by_cases hne : e'.getFirstCluster = c
    · rw [hne]
      exact hbytes d' k' e' hlive hne
    · rw [(hst.other hch.object hne).2]

/-- A creation that runs out of space has changed something when the directory took the last cluster. -/
theorem Refused.noSpace (hown : Own drv (viewOf drv t) T') (href : Refused drv (viewOf drv s) T d .noSpace (viewOf drv t) T')
    (hd : T.Dir d) : Absorbed drv s t d 0 [] ∧ (Unchanged drv s t ↔ ¬ TakesLast drv s d) := by
  generalize hw : viewOf drv t = w at href hown
  cases href with
  | early herr => exact absurd rfl herr
  | full hnil =>
    have hst : Stretched drv T (viewOf drv s) d [] (viewOf drv t) T :=
      ⟨hw ▸ h,(List.append_nil _).symm,fun _ _ => rfl,fun _ hd => ⟨hd,rfl⟩,fun _ _ => by rw [hw]⟩
    refine ⟨hst.absorbed G hs ht h hd.1 (by rw [hw]; rfl) (hw ▸ hnil) (m := 0) ?_,
      iff_of_true (hst.unchanged G hs h (fun _ => by rw [hw]) (by rw [hw]) fun _ _ _ _ _ => by rw [hw]) ?_⟩
    · rw [List.take_nil,overwrite_nil,List.replicate_zero,List.append_nil,hw]
    · rintro ⟨hone,-⟩
      rw [hnil] at hone
      cases hone
  | expanded hall hexp hfull =>
    subst hw
    obtain ⟨x,hfree,hst,hcont⟩ := hexp.stretched h.stored
    refine ⟨hst.absorbed G hs ht h hd.1 hfree hfull (m := drv.clusterSize) ?_,iff_of_false (fun hun => ?_) ?_⟩
    · rw [List.take_nil,overwrite_nil,hcont]
    · have := hun.free
      rw [hfull,hfree] at this
      cases this
    · refine not_not.mpr ⟨by rw [hfree,hfull]; rfl,fun entries hlist => ?_⟩
      rw [hlist.eq_listed G hs h hd]
      exact hall

omit ht in
/-- A write that ran out of space, as the volume shows it. -/
theorem writeFile_noSpace (hatt : T.Attached d) (hk : (listed (T.slots d))[k]? = some e) (hc : e.isChild = true)
    (hf : e.isDirectory = false) (hid : decodeNodeId id = (e.getFirstCluster,d,a))
    (hw : writeFile drv p id offset data s = .ok (.error .noSpace,t)) : e.getFirstCluster ≠ 0 ∧ Holds drv t ∧
      ∃ l', Put drv T e.getFirstCluster offset data.val (viewOf drv s) (T.chain e.getFirstCluster) (viewOf drv t) l' ∧
        Full drv (offset + data.val.length) (viewOf drv t) l' := by
  have hd := hatt.dir h.ok
  have hslot := (listed_getElem? hk).1
  by_cases hne : data.val = []
  · rw [writeFile,if_pos (by simpa using hne)] at hw
    cases hw
  have hempty : data.val.isEmpty = false := by simpa using hne
  cases ha : isDirectory a with
  | true =>
    simp only [writeFile,hempty,hid,ha,Bool.false_eq_true,if_false,if_true] at hw
    cases hw
  | false =>
    by_cases h0 : e.getFirstCluster = 0
    · simp only [writeFile,hempty,hid,ha,h0,Bool.false_eq_true,if_false,if_true] at hw
      cases hw
    have hch := (h.ok.slot hd (List.mem_of_getElem? hslot)).child hc h0
    obtain ⟨e₀,hfind⟩ : ∃ e₀, ((listed (T.slots d)).find? fun e' => e'.getFirstCluster == e.getFirstCluster) = some e₀ :=
      Option.isSome_iff_exists.mp (List.find?_isSome.mpr ⟨e,List.mem_of_getElem? hk,beq_self_eq_true _⟩)
    cases hn : usizeAdd p offset data.val.length with
    | error f =>
      rw [writeFile_overflow G hs h hd hfind h0 hid ha hne hn] at hw
      cases hw
    | ok n =>
      obtain ⟨r,w,l',hrun,-,hres⟩ := writeFile_outcome G h hd hfind (findIdx?_live h hatt hk hc h0) hslot hch.object
        (hch.kind ▸ hf) h0 hid ha offset hne hn
      obtain ⟨hr,ht,hview⟩ := hrun.returns hs hw
      have hview : viewOf drv t = w := hview
      rcases hres with ⟨rfl,-⟩ | ⟨-,hput,hfull⟩
      · cases hr
      · rw [← hview] at hput hfull
        exact ⟨h0,ht,l',hput,hfull⟩

omit ht in
/-- A write that runs out of space has changed nothing when there was no free cluster and it put the same bytes
in place. -/
theorem write_noSpace (hd : Reachable drv s d) (hl : Lists drv s d entries) (hk : entries[k]? = some e)
    (hc : e.isChild = true) (hf : e.isDirectory = false) (hid : decodeNodeId id = (e.getFirstCluster,d,a))
    (hw : writeFile drv p id offset data s = .ok (.error .noSpace,t)) : Absorbed drv s t e.getFirstCluster offset data.val ∧
      (Unchanged drv s t ↔ freeClusters drv (viewOf drv s) = [] ∧ Repeats drv s e offset data.val) := by
  have hatt := hd.attached G hs h
  have hlist := hl
  obtain rfl := hl.eq_listed G hs h (hatt.dir h.ok)
  obtain ⟨h0,ht,l',hput,hfull⟩ := writeFile_noSpace G hs h hatt hk hc hf hid hw
  have hlive : LiveEntry drv s d k e := ⟨hd,⟨_,hlist,hk⟩,hc,h0⟩
  obtain ⟨-,-,hch⟩ := hlive.stored G hs h
  have hfile : T.isDir e.getFirstCluster = false := hch.kind ▸ hf
  obtain ⟨xs,hfree,hst⟩ := hput.stretched hfile
  have hchain : (T.withChain e.getFirstCluster l').chain e.getFirstCluster = l' := Function.update_self ..
  have hkept := hput.kept_iff h.stored (hch.fileSize hf) hfull
  obtain ⟨m,hm⟩ := hput.contents
  refine ⟨hst.absorbed G hs ht h hch.object hfree hfull.none (m := m) (hchain.symm ▸ hm),fun hun => ?_,fun ⟨hnil,hrep⟩ => ?_⟩
  · have hnil := hun.free.symm.trans hfull.none
    rw [hfull.none,List.append_nil] at hfree
    obtain rfl := hfree.symm.trans hnil
    obtain rfl : l' = T.chain e.getFirstCluster := hchain.symm.trans (hst.own.trans (List.append_nil _))
    exact ⟨hnil,(repeats_iff h hch.object).mpr (hkept.mp (hun.files d k e _ hlive hf (goodChain_of_object h hch.object)))⟩
  · rw [hfull.none,List.append_nil] at hfree
    obtain rfl := hfree.symm.trans hnil
    obtain rfl : l' = T.chain e.getFirstCluster := hchain.symm.trans (hst.own.trans (List.append_nil _))
    obtain ⟨ys,hys,-,hfat⟩ := hput.took
    have hnone : ys = [] := by simpa using hys
    refine hst.unchanged G hs h (fun hdir => ?_) (hfat hnone) fun d' k' e' hlive' heq => ?_
    · rw [hfile] at hdir
      cases hdir
    · obtain ⟨-,-,rfl⟩ := hlive'.same G hs h hlive heq
      exact hkept.mpr ((repeats_iff h hch.object).mp hrep)

end Volumes

/-- On every volume a run from a fresh format reaches without deleting an empty directory through a dot entry, an
operation that runs out of space leaves all free clusters with its directory or file and nothing else; it has
changed nothing if and only if there was no free cluster to take and, in a write, nothing new to put. -/
theorem run_noSpace {ops : List FatOp} {rs : List (Except FileSystemError FatReply)} (h : Fresh p drv s)
    (hc : meets (exec drv p) (sparesDots drv) ops s = true) (hrun : runAll (exec drv p) ops s = .ok (rs,t)) :
    (∀ id d q a name u, decodeNodeId id = (d,q,a) → Reachable drv t d → createFile drv id name t = .ok (.error .noSpace,u) →
      Absorbed drv t u d 0 [] ∧ (Unchanged drv t u ↔ ¬ TakesLast drv t d)) ∧
    (∀ id d q a name u, decodeNodeId id = (d,q,a) → Reachable drv t d → createDirectory drv id name t = .ok (.error .noSpace,u) →
      Absorbed drv t u d 0 [] ∧ (Unchanged drv t u ↔ ¬ TakesLast drv t d)) ∧
    ∀ (id : FileNodeHandle) (d k : Nat) (e : DirectoryEntry) (entries : List DirectoryEntry) (a : UInt8) (offset : Nat)
      (data : ByteSlice) (u : Disk), decodeNodeId id = (e.getFirstCluster,d,a) → Reachable drv t d → Lists drv t d entries →
      entries[k]? = some e → e.isChild = true → e.isDirectory = false → writeFile drv p id offset data t = .ok (.error .noSpace,u) →
      Absorbed drv t u e.getFirstCluster offset data.val ∧
        (Unchanged drv t u ↔ freeClusters drv (viewOf drv t) = [] ∧ Repeats drv t e offset data.val) := by
  have G := h.geometry
  obtain ⟨ht,T,ho⟩ := h.run_inOrder hc hrun
  have refused : ∀ {m : FsProg Disk FileNodeHandle} {d : Nat} {name : List Char} {attrs : UInt8} {u : Disk}, Reachable drv t d →
      (∃ r w T', (onDisk drv).Runs m (viewOf drv t) r w ∧ CreateResult drv (viewOf drv t) T d name attrs r w T') →
      m t = .ok (.error .noSpace,u) → Absorbed drv t u d 0 [] ∧ (Unchanged drv t u ↔ ¬ TakesLast drv t d) := by
    intro m d name attrs u hd ⟨r,w,T',hruns,hres⟩ hm
    obtain ⟨rfl,hu,hview⟩ := hruns.returns ht hm
    have hview : viewOf drv u = w := hview
    subst hview
    cases hres with
    | refused hown href => exact href.noSpace G ht hu ho.toSound hown ((hd.attached G ht ho.toSound).dir ho.ok)
  refine ⟨fun id d q a name u hid hd hw => ?_,fun id d q a name u hid hd hw => ?_,
    fun id d k e entries a offset data u hid hd hl hk hchild hf hw => write_noSpace G ht ho.toSound hd hl hk hchild hf hid hw⟩
  · have hdir := (hd.attached G ht ho.toSound).dir ho.ok
    exact refused hd (createFile_runs G ho hid (fun _ => hdir) name) hw
  · have hdir := (hd.attached G ht ho.toSound).dir ho.ok
    exact refused hd (createDirectory_runs G ho hid (fun _ => hdir) name) hw

/-- The answer of a creation in the root of a tiny volume, and the free clusters before and after it. -/
private def rootCreation (name : List Char) (t : Disk) :
    Option (Except FileSystemError FileNodeHandle × List Nat × List Nat) :=
  match createFile (tinyDriver 4) (encodeNodeId .createForRoot 2) name t with
  | .ok (r,u) => some (r,freeClusters (tinyDriver 4) (viewOf (tinyDriver 4) t),freeClusters (tinyDriver 4) (viewOf (tinyDriver 4) u))
  | .error _ => none

private theorem rootCreation_noSpace {name : List Char} {before after : List Nat}
    (h : rootCreation name t = some (.error .noSpace,before,after)) : ∃ u,
      createFile (tinyDriver 4) (encodeNodeId .createForRoot 2) name t = .ok (.error .noSpace,u) ∧
      freeClusters (tinyDriver 4) (viewOf (tinyDriver 4) t) = before ∧ freeClusters (tinyDriver 4) (viewOf (tinyDriver 4) u) = after := by
  rw [rootCreation] at h
  split at h
  · rename_i r u hcreate
    obtain ⟨rfl,rfl,rfl⟩ : r = .error .noSpace ∧ _ ∧ _ := by simpa using h
    exact ⟨u,hcreate,rfl,rfl⟩
  · cases h

/-- On a volume without a free cluster a creation changes nothing. -/
theorem run_noSpace_full : ∃ rs t u, runAll (exec (tinyDriver 4) .dev) [.createFile ['/'] ['F']] (tinyVolume 4) = .ok (rs,t) ∧
    createFile (tinyDriver 4) (encodeNodeId .createForRoot 2) ['G'] t = .ok (.error .noSpace,u) ∧ Unchanged (tinyDriver 4) t u := by
  have htrace : ((runAll (exec (tinyDriver 4) .dev) [.createFile ['/'] ['F']] (tinyVolume 4)).toOption.map fun x =>
      rootCreation ['G'] x.2) = some (some (.error .noSpace,[],[])) := by decide +kernel
  have hc : meets (exec (tinyDriver 4) .dev) (sparesDots (tinyDriver 4)) [.createFile ['/'] ['F']] (tinyVolume 4) = true := by
    refine meets_of_forall fun op hop s => ?_
    rw [List.mem_singleton.mp hop]
    rfl
  obtain ⟨rs,t,hrun,ht⟩ := runAll_of_view htrace
  obtain ⟨u,hu,hbefore,-⟩ := rootCreation_noSpace ht
  refine ⟨rs,t,u,hrun,hu,((run_noSpace (tinyVolume_fresh .dev (.inl rfl)) hc hrun).1 _ 2 2 _ ['G'] u decode_root .root hu).2.mpr ?_⟩
  rintro ⟨hone,-⟩
  rw [hbefore] at hone
  cases hone

/-- On the fresh volume with one free cluster the root takes it, and then there is none for the file. -/
theorem root_takes_last : Fresh .dev (tinyDriver 4) (tinyVolume 4) ∧
    runAll (exec (tinyDriver 4) .dev) [] (tinyVolume 4) = .ok ([],tinyVolume 4) ∧
    ∃ u, createFile (tinyDriver 4) (encodeNodeId .createForRoot 2) ['F'] (tinyVolume 4) = .ok (.error .noSpace,u) ∧
      ¬ Unchanged (tinyDriver 4) (tinyVolume 4) u := by
  have hseen : rootCreation ['F'] (tinyVolume 4) = some (.error .noSpace,[3],[]) := by decide +kernel
  obtain ⟨u,hu,hbefore,hafter⟩ := rootCreation_noSpace hseen
  refine ⟨tinyVolume_fresh .dev (.inl rfl),rfl,u,hu,fun hun => ?_⟩
  have := hun.free
  rw [hbefore,hafter] at this
  cases this

end Fat32Driver
end MofuOS.Filesystem.Fat32
