import MofuOS.Filesystem.Fat32.FileSize

/-! Bytes that were never written. Behind the size of a file its chain holds zeros, unless a write
that ran out of space has left its data there. -/
namespace MofuOS.Filesystem.Fat32
open Lib Io

namespace Fat32Driver
variable {drv : Fat32Driver} {p : Profile} {s t u : Disk} {v w : FatView} {T T' : Tree} {c d k n offset : Nat} {e : DirectoryEntry}
  {data : ByteSlice} {attrs : UInt8} {name : List Char} {err : FileSystemError}

/-- A write has room for its end, which fits 32 bits; or what it puts on the full volume before it fails is
zero behind the end of the file. -/
def keepsGap (drv : Fat32Driver) : FatOp → Disk → Bool
  | .write path offset data, s =>
    match findDirentry drv path s with
    | .ok (.ok (e,_),_) =>
      match getClusterChainLength drv e.getFirstCluster s with
      | .ok (.ok clusters,_) =>
        let capacity := (clusters + (freeClusters drv (viewOf drv s)).length) * drv.clusterSize
        let newEnd := offset.toNat + data.val.length
        data.val.isEmpty || e.isDirectory || e.getFirstCluster == 0 ||
          if newEnd ≤ capacity then decide (newEnd < 2^32)
          else ((data.val.take (capacity - offset.toNat)).drop (e.fileSize.toNat - offset.toNat)).all (· == 0)
      | _ => true
    | _ => true
  | _, _ => true

/-- The chains of the live files hold zeros behind their sizes. -/
def ZeroTails (v : FatView) (T : Tree) : Prop :=
  ∀ d e, T.Dir d → e ∈ T.slots d → e.isChild = true → e.isDirectory = false → e.getFirstCluster ≠ 0 →
    ZeroFrom e.fileSize.toNat (v.contents (T.chain e.getFirstCluster))

/-- The clusters of a file are no clusters of a directory. -/
theorem Sound.file_apart (h : Sound drv v T) (hfile : T.isDir c = false) (hd : T.Dir d) {y : Nat} (hy : y ∈ T.chain c) :
    y ∉ T.chain d := by
  intro hy'
  rw [h.stored.forest.disjoint c d y hy hy',hd.2] at hfile
  cases hfile

/-- An unused slot holds no live entry. -/
private theorem not_child_of_unused (h : e ∈ unusedSlots drv) : e.isChild = false := by
  rw [List.eq_of_mem_replicate h]
  rfl

private theorem not_child_of_new {b : Bool} {x : Nat} (h : e ∈ newSlots drv b x d) : e.isChild = false := by
  rw [newSlots] at h
  split_ifs at h
  · rcases List.mem_or_eq_of_mem_set h with h | rfl
    · rcases List.mem_or_eq_of_mem_set h with h | rfl
      · exact not_child_of_unused h
      · rfl
    · rfl
  · exact not_child_of_unused h

namespace ZeroTails

theorem expanded (h : ZeroTails v T) (hs : Sound drv v T) (hd : T.Dir d) (hx : Expanded drv v T d w T') : ZeroTails w T' := by
  obtain ⟨x,rfl,hfree,-,hframe⟩ := hx.tree
  have hx0 := (mem_freeClusters.mp (hfree ▸ List.mem_cons_self)).2
  intro d' e hd' he hc hf h0
  have hd₀ : T.Dir d' := by
    refine ⟨?_,hd'.2⟩
    by_cases hdd : d' = d
    · exact hdd ▸ hd.1
    · have := hd'.1
      rwa [Tree.grow_chain,Function.update_of_ne hdd] at this
  have hmem : e ∈ T.slots d' := by
    rw [Tree.grow_slots] at he
    by_cases hdd : d' = d
    · subst hdd
      rw [Function.update_self,List.mem_append] at he
      rcases he with he | he
      · exact he
      · rw [not_child_of_unused he] at hc
        cases hc
    · rwa [Function.update_of_ne hdd] at he
  have hfile : T.isDir e.getFirstCluster = false := ((hs.ok.slot hd₀ hmem).child hc h0).kind ▸ hf
  have hne : e.getFirstCluster ≠ d := by
    intro hed
    rw [hed,hd.2] at hfile
    cases hfile
  rw [Tree.grow_chain,Function.update_of_ne hne,FatView.contents_congr fun y hy => hframe y fun hyx =>
    hs.stored.free_unowned hx0 _ (hyx ▸ hy)]
  exact h _ _ hd₀ hmem hc hf h0

/-- A new object starts with a zeroed cluster. -/
theorem created (h : ZeroTails v T) (hs : Own drv v T) (hd : T.Dir d) (hc : Created drv v T d name attrs e w T') :
    ZeroTails w T' := by
  obtain ⟨k,u,T₁,hclaim,hfree,rfl,hframe,hzero⟩ := hc.place
  have hs₁ := hclaim.own.toSound
  have hd₁ := hclaim.dir hd
  have h₁ : ZeroTails u T₁ := by
    rcases hclaim.how with ⟨rfl,rfl,-⟩ | ⟨-,-,hexp⟩
    · exact h
    · exact h.expanded hs.toSound hd hexp
  have hx0 := (mem_freeClusters.mp (hfree ▸ List.mem_cons_self)).2
  have hno := hs₁.stored.free_no_object hx0
  intro d' e' hd' he' hchild hf h0
  obtain ⟨i,hi⟩ := List.getElem?_of_mem he'
  rcases Tree.slots_setSlot hi with ⟨-,-,rfl⟩ | ⟨-,hold⟩
  · have hchain : (T₁.add e'.getFirstCluster e'.isDirectory d (newSlots drv e'.isDirectory e'.getFirstCluster d)).chain
        e'.getFirstCluster = [e'.getFirstCluster] := by rw [Tree.add_chain,Function.update_self]
    rw [Tree.setSlot_chain,hchain,FatView.contents,List.flatMap_cons,List.flatMap_nil,List.append_nil,hzero hf]
    exact zeroFrom_replicate _ _
  · rw [Tree.setSlot_chain]
    rw [Tree.add_slots] at hold
    by_cases hdx : d' = e.getFirstCluster
    · rw [hdx,Function.update_self] at hold
      rw [not_child_of_new (List.mem_of_getElem? hold)] at hchild
      cases hchild
    · rw [Function.update_of_ne hdx] at hold
      have hdir : T₁.Dir d' := by
        have h1 := hd'.1
        have h2 := hd'.2
        rw [Tree.setSlot_chain,Tree.add_chain,Function.update_of_ne hdx] at h1
        rw [Tree.setSlot_isDir,Tree.add_isDir,Function.update_of_ne hdx] at h2
        exact ⟨h1,h2⟩
      have hmem := List.mem_of_getElem? hold
      have hch := (hs₁.ok.slot hdir hmem).child hchild h0
      have hne : e'.getFirstCluster ≠ e.getFirstCluster := by
        intro heq
        rw [← heq] at hno
        exact hch.object hno
      have hfile : T₁.isDir e'.getFirstCluster = false := hch.kind.symm.trans hf
      have hsame : ∀ y ∈ T₁.chain e'.getFirstCluster, w.data y = u.data y := by
        intro y hy
        have hapart := hs₁.file_apart hfile hd₁ hy
        have hnew : y ≠ e.getFirstCluster := by
          intro hyx
          rw [hyx] at hy
          exact hs₁.stored.free_unowned hx0 _ hy
        exact hframe y hapart hnew
      rw [Tree.add_chain,Function.update_of_ne hne,FatView.contents_congr hsame]
      exact h₁ _ _ hdir hmem hchild hf h0

/-- File c, of the entry e, gets the clusters l', and its bytes are overwritten with zeros behind its size n. -/
private theorem rewritten (h : ZeroTails v T) (hs : Sound drv v T) (hf : FileAt T d k e) {l' : List Nat}
    (hw : Sound drv w T') (hT : T'.chain = (T.withChain e.getFirstCluster l').chain)
    (hframe : ∀ y, y ∉ l' → y ∉ T.chain d → w.data y = v.data y) {bytes : List UInt8} {m : Nat} (hcont : w.contents l' =
      overwrite (v.contents (T.chain e.getFirstCluster) ++ List.replicate m 0) offset bytes)
    (hroom : offset + bytes.length ≤ l'.length * drv.clusterSize) (hle : e.fileSize.toNat ≤ n)
    (hzero : ZeroFrom (n - offset) bytes) : ZeroFrom n (w.contents l') ∧
      ∀ {d' i : Nat} {e' : DirectoryEntry}, T.Dir d' → (T.slots d')[i]? = some e' → (d',i) ≠ (d,k) → e'.isChild = true →
        e'.isDirectory = false → e'.getFirstCluster ≠ 0 →
        ZeroFrom e'.fileSize.toNat (w.contents (T'.chain e'.getFirstCluster)) := by
  have hslot := hf.getElem?.1
  have hch := (hs.ok.slot hf.dir (List.mem_of_getElem? hslot)).child hf.child hf.cluster
  have hown : T'.chain e.getFirstCluster = l' := by
    rw [hT,Tree.withChain_chain,Function.update_self]
  constructor
  · have hlen := length_contents hw.stored.solid (hw.stored.inside e.getFirstCluster)
    rw [hown,hcont] at hlen
    rw [← hlen] at hroom
    have hold := h _ _ hf.dir (List.mem_of_getElem? hslot) hf.child hf.file hf.cluster
    have hold' : ZeroFrom n (v.contents (T.chain e.getFirstCluster)) := fun b hb =>
      hold b (List.mem_of_mem_drop (i := n - e.fileSize.toNat) (by rwa [List.drop_drop,Nat.add_sub_cancel' hle]))
    rw [hcont]
    exact (hold'.append_zeros m).overwrite (le_of_length_overwrite hroom) hzero
  · intro d' i e' hd' hi hne hc' hf' h0'
    have hch' := (hs.ok.slot hd' (List.mem_of_getElem? hi)).child hc' h0'
    have hcl : e'.getFirstCluster ≠ e.getFirstCluster := by
      intro heq
      obtain rfl : d' = d := by rw [← hch'.parent,heq,hch.parent]
      exact hne (by rw [hs.ok.unique hd' hi hslot hc' hf.child heq h0'])
    have hchain : T'.chain e'.getFirstCluster = T.chain e'.getFirstCluster := by
      rw [hT,Tree.withChain_chain,Function.update_of_ne hcl]
    rw [hchain,FatView.contents_congr fun y hy => hframe y (fun hyl => hcl ?_) (hs.file_apart (hch'.kind ▸ hf') hf.dir hy)]
    · exact h _ _ hd' (List.mem_of_getElem? hi) hc' hf' h0'
    · exact hw.stored.forest.disjoint _ _ y (hchain.symm ▸ hy) (hown.symm ▸ hyl)

/-- A file whose end fits 32 bits has been written. -/
theorem wrote (h : ZeroTails v T) (hs : Sound drv v T) (hf : FileAt T d k e) {bytes : List UInt8} {l' : List Nat}
    (hn : offset + bytes.length < 2^32) (hw : WroteFile drv T d k e offset bytes (offset + bytes.length) v w l') :
    ZeroTails w ((T.withChain e.getFirstCluster l').setSlot d k (e.grown (offset + bytes.length))) := by
  have hslot := hf.getElem?.1
  have hch := (hs.ok.slot hf.dir (List.mem_of_getElem? hslot)).child hf.child hf.cluster
  have hfile : T.isDir e.getFirstCluster = false := hch.kind ▸ hf.file
  obtain ⟨m,hm⟩ := hw.contents
  obtain ⟨hself,hothers⟩ := h.rewritten hs hf hw.sound rfl hw.frame hm hw.room
    (Nat.le_max_left e.fileSize.toNat (offset + bytes.length)) (fun b hb => by
      rw [List.drop_eq_nil_of_le (by omega)] at hb
      cases hb)
  intro d' e' hd' he' hc' hf' h0'
  have hdir : T.Dir d' := (Tree.dir_withChain hfile).mp hd'
  obtain ⟨i,hi⟩ := List.getElem?_of_mem he'
  rcases Tree.slots_setSlot hi with ⟨rfl,rfl,rfl⟩ | ⟨hne,hold⟩
  · rw [Tree.setSlot_chain,getFirstCluster_grown,Tree.withChain_chain,Function.update_self,fileSize_grown e hn]
    exact hself
  · exact hothers hdir hold (fun heq => hne (Prod.ext_iff.mp heq)) hc' hf' h0'

/-- A write ran out of space, and what it put behind the end of the file is zero. -/
theorem put (h : ZeroTails v T) (hs : Sound drv v T) (hf : FileAt T d k e) {bytes : List UInt8} {l' : List Nat}
    (hw : Put drv T e.getFirstCluster offset bytes v (T.chain e.getFirstCluster) w l')
    (hzero : ZeroFrom (e.fileSize.toNat - offset) (bytes.take (l'.length * drv.clusterSize - offset))) :
    ZeroTails w (T.withChain e.getFirstCluster l') := by
  have hslot := hf.getElem?.1
  have hch := (hs.ok.slot hf.dir (List.mem_of_getElem? hslot)).child hf.child hf.cluster
  have hfile : T.isDir e.getFirstCluster = false := hch.kind ▸ hf.file
  obtain ⟨m,hm⟩ := hw.contents
  have hframe : ∀ y, y ∉ l' → y ∉ T.chain d → w.data y = v.data y := fun y hy _ => hw.frame y hy
  obtain ⟨o,z,hz,hroom,hbehind⟩ : ∃ o z, w.contents l' =
      overwrite (v.contents (T.chain e.getFirstCluster) ++ List.replicate m 0) o z ∧
      o + z.length ≤ l'.length * drv.clusterSize ∧ ZeroFrom (e.fileSize.toNat - o) z := by
    have hlen := List.length_take_le (l'.length * drv.clusterSize - offset) bytes
    by_cases hshort : l'.length * drv.clusterSize < offset
    · -- the chain ends in front of the offset, so nothing has been put
      refine ⟨0,[],?_,Nat.zero_le _,by simp [ZeroFrom]⟩
      rw [hm,Nat.sub_eq_zero_of_le hshort.le,List.take_zero,overwrite_nil,overwrite_nil]
    · exact ⟨offset,_,hm,by omega,hzero⟩
  obtain ⟨hself,hothers⟩ := h.rewritten hs hf hw.sound rfl hframe hz hroom (Nat.le_refl _) hbehind
  intro d' e' hd' he' hc' hf' h0'
  have hdir : T.Dir d' := (Tree.dir_withChain hfile).mp hd'
  obtain ⟨i,hi⟩ := List.getElem?_of_mem he'
  by_cases heq : (d',i) = (d,k)
  · obtain ⟨rfl,rfl⟩ := Prod.ext_iff.mp heq
    obtain rfl : e = e' := Option.some.inj (hslot.symm.trans hi)
    rw [Tree.withChain_chain,Function.update_self]
    exact hself
  · exact hothers hdir hi heq hc' hf' h0'

/-- A file or directory has been deleted. -/
theorem deleted (h : ZeroTails v T) (hs : Sound drv v T) (hs' : Sound drv w T') (hd : T.Dir d)
    (hx : Deleted drv v T d c w T') : ZeroTails w T' := by
  obtain ⟨k,e,hk,-,-,htree⟩ := hx.slot
  intro d' e' hd' he' hc' hf' h0'
  have hchain : ∀ x, T'.chain x ≠ [] → T'.chain x = T.chain x := by
    intro x hne
    rw [htree] at hne ⊢
    split_ifs at hne ⊢
    · rfl
    · rw [Tree.remove_chain] at hne ⊢
      by_cases hxc : x = c
      · rw [hxc,Function.update_self] at hne
        exact absurd rfl hne
      · rw [Function.update_of_ne hxc]
        rfl
  have hslots : T'.slots = (T.setSlot d k e.markDeleted).slots := by
    rw [htree]
    split_ifs <;> rfl
  have hdir : T.Dir d' := by
    refine ⟨hchain d' hd'.1 ▸ hd'.1,?_⟩
    have := hd'.2
    rw [htree] at this
    split_ifs at this <;> exact this
  have hmem : e' ∈ T.slots d' := by
    rw [hslots] at he'
    obtain ⟨i,hi⟩ := List.getElem?_of_mem he'
    rcases Tree.slots_setSlot hi with ⟨-,-,rfl⟩ | ⟨-,hold⟩
    · rw [DirectoryEntry.isChild_markDeleted] at hc'
      cases hc'
    · exact List.mem_of_getElem? hold
  have hch := (hs.ok.slot hdir hmem).child hc' h0'
  rw [hchain _ ((hs'.ok.slot hd' he').child hc' h0').object,
    FatView.contents_congr fun y hy => hx.frame y (hs.file_apart (hch.kind ▸ hf') hd hy)]
  exact h _ _ hdir hmem hc' hf' h0'

end ZeroTails

/-- What the condition on a write says about the chain and the free clusters. -/
private theorem keepsGap_write (G : Geometry drv) (hs : Holds drv s) (ho : Own drv (viewOf drv s) T) {path : List Char}
    {offset : UInt64} (entry : (onDisk drv).Runs (findDirentry drv path) (viewOf drv s) (.ok (e,d)) (viewOf drv s))
    (hf : FileAt T d k e) (hne : data.val ≠ []) (hgap : keepsGap drv (.write path offset data) s = true) {capacity : Nat}
    (hcap : capacity = ((T.chain e.getFirstCluster).length + (freeClusters drv (viewOf drv s)).length) * drv.clusterSize) :
    (offset.toNat + data.val.length ≤ capacity → offset.toNat + data.val.length < 2^32) ∧
      (capacity < offset.toNat + data.val.length →
        ZeroFrom (e.fileSize.toNat - offset.toNat) (data.val.take (capacity - offset.toNat))) := by
  have hch := (ho.ok.slot hf.dir (List.mem_of_getElem? hf.getElem?.1)).child hf.child hf.cluster
  have hempty : data.val.isEmpty = false := by simpa using hne
  have hzero : (e.getFirstCluster == 0) = false := beq_eq_false_iff_ne.mpr hf.cluster
  obtain ⟨_,hfind,-⟩ := entry s hs rfl
  obtain ⟨_,hcount,-⟩ := getClusterChainLength_runs G ho.stored.solid (ho.stored.chained hch.object) s hs rfl
  simp only [keepsGap,hfind,hcount,hempty,hf.file,hzero,Bool.false_or,← hcap] at hgap
  split_ifs at hgap with hroom
  · exact ⟨fun _ => of_decide_eq_true hgap,fun hlt => absurd hroom (Nat.not_le.mpr hlt)⟩
  · refine ⟨fun hle => absurd hle hroom,fun _ b hb => ?_⟩
    exact beq_iff_eq.mp (List.all_eq_true.mp hgap b hb)

theorem Change.zeroTails (G : Geometry drv) (hs : Holds drv s) (ho : Own drv (viewOf drv s) T) (h : ZeroTails (viewOf drv s) T)
    (ho' : Own drv w T') {op : FatOp} (hgap : keepsGap drv op s = true) (hch : Change drv p (viewOf drv s) T op w T') :
    ZeroTails w T' := by
  cases hch with
  | same => exact h
  | refused hd href =>
    cases href with
    | early => exact h
    | full => exact h
    | expanded _ hexp => exact h.expanded ho.toSound hd hexp
  | createdFile _ _ hd hc => exact h.created ho hd hc
  | createdDirectory _ _ hd hc => exact h.created ho hd hc
  | deleted hd hdel => exact h.deleted ho.toSound ho'.toSound hd hdel
  | @written path offset data e d w T' entry hw =>
    cases hw with
    | same => exact h
    | @wrote k n w l' hf hne hn took hw =>
      obtain ⟨xs,rfl,hfree,-⟩ := took
      have hroom := hw.room
      have hsmall := (keepsGap_write G hs ho entry hf hne hgap rfl).1 (hroom.trans (Nat.mul_le_mul_right _ ?_))
      · have hbound : offset.toNat + data.val.length < usizeBound := Nat.lt_trans hsmall (by decide)
        rw [usizeAdd_of_lt p hbound] at hn
        obtain rfl := Except.ok.inj hn
        exact h.wrote ho.toSound hf hsmall hw
      · rw [hfree,List.length_append,List.length_append]
        omega
    | @full k w l' hf hne hput hfull =>
      obtain ⟨xs,hl,hfree,-⟩ := hput.took
      rw [hfull.none,List.append_nil] at hfree
      have hcap : l'.length * drv.clusterSize =
          ((T.chain e.getFirstCluster).length + (freeClusters drv (viewOf drv s)).length) * drv.clusterSize := by
        rw [hl,hfree,List.length_append]
      exact h.put ho.toSound hf hput ((keepsGap_write G hs ho entry hf hne hgap hcap).2 hfull.short)

/-- On every volume a run from a fresh format reaches without deleting an empty directory through a dot entry, and
in which no write that ran out of space left other bytes than zeros behind the end of its file, a write behind the
end of a live file leaves zeros between the old end and its offset. -/
theorem run_gap_zero {ops : List FatOp} {rs : List (Except FileSystemError FatReply)} (h : Fresh p drv s)
    (hc : meets (exec drv p) (fun op s => sparesDots drv op s && keepsGap drv op s) ops s = true)
    (hrun : runAll (exec drv p) ops s = .ok (rs,t)) (hlive : LiveEntry drv t d k e) (hf : e.isDirectory = false)
    (hoff : e.fileSize.toNat < offset) (hw : writeFile drv p (encodeNodeId e d) offset data t = .ok (.ok n,u)) :
    ∃ bytes u', readFile drv (encodeNodeId e d) e.fileSize.toNat (offset - e.fileSize.toNat) u = .ok (.ok bytes,u') ∧
      (∀ b ∈ bytes, b = 0) ∧
      (data.val ≠ [] → offset + data.val.length < 2^32 → bytes.length = offset - e.fileSize.toNat) := by
  have G := h.geometry
  have hstart : ZeroTails (viewOf drv s) (rootTree ((viewOf drv s).slots [2])) := by
    intro d e hd he _ _ h0
    exact absurd (h.rootEmpty e he).1 h0
  obtain ⟨ht,T,ho,hz⟩ := h.run_keeps (I := ZeroTails) (fun op s hop => (Bool.and_eq_true _ _ ▸ hop).1) hstart
    (fun hop hs ho hz ho' hch => hch.zeroTails h.geometry hs ho hz ho' (Bool.and_eq_true _ _ ▸ hop).2) hc hrun
  have hat := hlive.fileAt G ht ho.toSound ho hf
  have hslot := hat.getElem?.1
  have hok := ho.ok.slot hat.dir (List.mem_of_getElem? hslot)
  have hid := decode_of_le hok.number (G.inVolume_le (ho.stored.start_inVolume hat.dir.1))
  have ha : isDirectory (e.attributes &&& 0x7F) = false := by rw [isDirectory_attributes,hf]
  have htail := hz d e hat.dir (List.mem_of_getElem? hslot) hat.child hf hat.cluster
  by_cases hne : data.val = []
  · -- an empty write changes nothing, and nothing is read
    rw [writeFile,if_pos (by simpa using hne)] at hw
    cases hw
    obtain ⟨u',hu',-⟩ := readFile_runs G ho.toSound hat.dir hat.toLeads hf hat.child hat.cluster hid ha e.fileSize.toNat
      (offset - e.fileSize.toNat) t ht rfl
    rw [slice_eq_nil _ (List.length_take_le ..)] at hu'
    exact ⟨[],u',hu',(fun b hb => by cases hb),fun h => absurd hne h⟩
  cases hn : usizeAdd p offset data.val.length with
  | error f =>
    rw [writeFile_overflow G ht ho.toSound hat.dir hat.find? hat.cluster hid ha hne hn] at hw
    cases hw
  | ok m =>
    obtain ⟨r,w,l',hruns,-,hres⟩ := writeFile_runs G ho.toSound hat.dir hat.toLeads hf hat.child hat.cluster hid ha offset hne hn
    obtain ⟨hr,hu,hview⟩ := hruns.returns ht hw
    rcases hres with ⟨-,hwrote⟩ | ⟨rfl,-⟩
    · obtain ⟨u',hu',-⟩ := readFile_wrote G ho.toSound hat.dir hat.toLeads hf hat.child hat.cluster hid ha hwrote e.fileSize.toNat
        (offset - e.fileSize.toNat) u hu hview
      obtain ⟨z,hcont⟩ := hwrote.contents
      have hfile : T.isDir e.getFirstCluster = false := (hok.child hat.child hat.cluster).kind ▸ hf
      have hlen := length_contents hwrote.sound.stored.solid (hwrote.sound.stored.inside e.getFirstCluster)
      rw [Tree.setSlot_chain,Tree.withChain_chain,Function.update_self] at hlen
      have hroom := hwrote.room
      refine ⟨_,u',hu',?_,fun _ hsmall => ?_⟩
      · rw [hcont] at hlen ⊢
        rw [← hlen] at hroom
        exact (htail.append_zeros z).slice_overwrite (le_of_length_overwrite hroom) _ _
      · obtain rfl : m = offset + data.val.length := by
          rw [usizeAdd_of_lt p (Nat.lt_trans hsmall (by decide))] at hn
          exact (Except.ok.inj hn).symm
        rw [fileSize_grown e hsmall,length_slice]
        rw [List.length_take,hlen]
        omega
    · cases hr

/-- The first entry of the root, the answer to a write of one byte at o behind its end, and the bytes between. -/
private def gapSeen (o : Nat) (t : Disk) : Option (DirectoryEntry × List DirectoryEntry × Nat × Disk × List UInt8) :=
  match readDirectoryEntries (tinyDriver 5) 2 t with
  | .ok (.ok (e :: r),_) =>
    match writeFile (tinyDriver 5) .dev (encodeNodeId e 2) o ⟨[0x42],by decide⟩ t with
    | .ok (.ok n,u) =>
      match readFile (tinyDriver 5) (encodeNodeId e 2) e.fileSize.toNat (o - e.fileSize.toNat) u with
      | .ok (.ok bytes,_) => some (e,r,n,u,bytes)
      | _ => none
    | _ => none
  | _ => none

private theorem gapSeen_eq {o : Nat} {r : List DirectoryEntry} {bytes : List UInt8} (h : gapSeen o t = some (e,r,n,u,bytes)) :
    Lists (tinyDriver 5) t 2 (e :: r) ∧ writeFile (tinyDriver 5) .dev (encodeNodeId e 2) o ⟨[0x42],by decide⟩ t = .ok (.ok n,u) ∧
      ∃ u', readFile (tinyDriver 5) (encodeNodeId e 2) e.fileSize.toNat (o - e.fileSize.toNat) u = .ok (.ok bytes,u') := by
  rw [gapSeen] at h
  split at h
  · split at h
    · split at h
      · cases h
        exact ⟨⟨_,‹_›⟩,‹_›,_,‹_›⟩
      · cases h
    · cases h
  · cases h

theorem run_gap_zero_tiny : ∃ rs t d k e n u,
    runAll (exec (tinyDriver 5) .dev) [.createFile ['/'] ['F']] (tinyVolume 5) = .ok (rs,t) ∧ LiveEntry (tinyDriver 5) t d k e ∧
    writeFile (tinyDriver 5) .dev (encodeNodeId e d) 511 ⟨[0x42],by decide⟩ t = .ok (.ok n,u) ∧
    ∃ bytes u', readFile (tinyDriver 5) (encodeNodeId e d) e.fileSize.toNat (511 - e.fileSize.toNat) u = .ok (.ok bytes,u') ∧
      (∀ b ∈ bytes, b = 0) ∧ bytes.length = 511 - e.fileSize.toNat := by
  have hc : meets (exec (tinyDriver 5) .dev) (fun op s => sparesDots (tinyDriver 5) op s && keepsGap (tinyDriver 5) op s)
      [.createFile ['/'] ['F']] (tinyVolume 5) = true := by
    refine meets_of_forall fun op hop s => ?_
    rw [List.mem_singleton.mp hop]
    rfl
  have htrace : ((runAll (exec (tinyDriver 5) .dev) [.createFile ['/'] ['F']] (tinyVolume 5)).toOption.map fun x =>
      (gapSeen 511 x.2).map fun y =>
        y.1.isChild && !y.1.isDirectory && y.1.getFirstCluster != 0 && decide (y.1.fileSize.toNat < 511)) =
      some (some true) := by decide +kernel
  obtain ⟨rs,t,hrun,ht⟩ := runAll_of_view htrace
  obtain ⟨⟨e,r,n,u,bytes⟩,hseen,hview⟩ := Option.map_eq_some_iff.mp ht
  rw [Bool.and_eq_true,Bool.and_eq_true,Bool.and_eq_true,Bool.not_eq_true',bne_iff_ne,decide_eq_true_eq] at hview
  obtain ⟨⟨⟨hchild,hf⟩,h0⟩,hoff⟩ := hview
  obtain ⟨hlist,hw,-⟩ := gapSeen_eq hseen
  have hlive : LiveEntry (tinyDriver 5) t 2 0 e := ⟨.root,⟨_,hlist,rfl⟩,hchild,h0⟩
  obtain ⟨bytes,u',hread,hzero,hlen⟩ := run_gap_zero (tinyVolume_fresh .dev (.inr rfl)) hc hrun hlive hf hoff hw
  exact ⟨rs,t,2,0,e,n,u,hrun,hlive,hw,bytes,u',hread,hzero,hlen (List.cons_ne_nil _ _) (by decide)⟩

/-- A write that runs out of space leaves bytes behind the end of F, and a later write behind them shows them. -/
theorem gap_shows_lost_write : Fresh .dev (tinyDriver 5) (tinyVolume 5) ∧ ∃ rs t d k e n u bytes u',
    runAll (exec (tinyDriver 5) .dev) [.createFile ['/'] ['F'],.write ['F'] 510 ⟨[0x41,0x41,0x41],by decide⟩] (tinyVolume 5) =
        .ok (rs,t) ∧
      rs.getLast? = some (.error .noSpace) ∧ LiveEntry (tinyDriver 5) t d k e ∧ e.isDirectory = false ∧ e.fileSize.toNat < 511 ∧
      writeFile (tinyDriver 5) .dev (encodeNodeId e d) 511 ⟨[0x42],by decide⟩ t = .ok (.ok n,u) ∧
      readFile (tinyDriver 5) (encodeNodeId e d) e.fileSize.toNat (511 - e.fileSize.toNat) u = .ok (.ok bytes,u') ∧
      ¬ ∀ b ∈ bytes, b = 0 := by
  have htrace : ((runAll (exec (tinyDriver 5) .dev) [.createFile ['/'] ['F'],.write ['F'] 510 ⟨[0x41,0x41,0x41],by decide⟩]
      (tinyVolume 5)).toOption.map fun x => (decide (x.1.getLast? = some (.error .noSpace)),(gapSeen 511 x.2).map fun y =>
        y.1.isChild && !y.1.isDirectory && y.1.getFirstCluster != 0 && decide (y.1.fileSize.toNat < 511) &&
          y.2.2.2.2.any (· != 0))) = some (true,some true) := by decide +kernel
  obtain ⟨rs,t,hrun,ht⟩ := runAll_of_view htrace
  obtain ⟨hlast,ht⟩ := Prod.ext_iff.mp ht
  obtain ⟨⟨e,r,n,u,bytes⟩,hseen,hview⟩ := Option.map_eq_some_iff.mp ht
  rw [Bool.and_eq_true,Bool.and_eq_true,Bool.and_eq_true,Bool.and_eq_true,Bool.not_eq_true',bne_iff_ne,decide_eq_true_eq,
    List.any_eq_true] at hview
  obtain ⟨⟨⟨⟨hchild,hf⟩,h0⟩,hoff⟩,b,hb,hne⟩ := hview
  obtain ⟨hlist,hw,u',hread⟩ := gapSeen_eq hseen
  refine ⟨tinyVolume_fresh .dev (.inr rfl),rs,t,2,0,e,n,u,bytes,u',hrun,of_decide_eq_true hlast,
    ⟨.root,⟨_,hlist,rfl⟩,hchild,h0⟩,hf,hoff,hw,hread,fun hall => ?_⟩
  rw [hall b hb] at hne
  cases hne

end Fat32Driver
end MofuOS.Filesystem.Fat32
