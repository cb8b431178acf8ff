import MofuOS.Filesystem.Fat32.Fresh

/-! When a creation grows its directory. The search for a slot is given the listing, which
ends in front of the first slot that was never used, and takes its end for that of the chain. -/
namespace MofuOS.Filesystem.Fat32.Fat32Driver
open Lib Io
variable {drv : Fat32Driver} {p : Profile} {s t u : Disk} {v w : FatView} {T T' : Tree} {d k k' : Nat}
  {e : DirectoryEntry} {slots : List DirectoryEntry} {path name : List Char}

/-- Some slot is deleted or was never used. -/
def hasFreeSlot (slots : List DirectoryEntry) : Bool := slots.any fun e => !e.isValid

/-- Some slot in front of the first unused one is deleted, or no slot is unused. -/
def searchCovers (slots : List DirectoryEntry) : Bool :=
  (listed slots).any (fun e => e.isDeleted) || slots.all fun e => !e.isEmpty

/-- A chain of k clusters has been extended only if all its slots were taken. -/
def GrownWhenFull (slots : List DirectoryEntry) (k k' : Nat) : Prop := k' = if hasFreeSlot slots then k else k + 1

theorem mem_of_listed (h : e ∈ listed slots) : e ∈ slots ∧ e.isEmpty = false :=
  ⟨(List.takeWhile_sublist _).subset h,by simpa using List.mem_takeWhile_imp h⟩

theorem isValid_eq_of_used (h : e.isEmpty = false) : e.isValid = !e.isDeleted := by
  rw [DirectoryEntry.isValid,h,Bool.false_or]

theorem listed_of_no_unused (h : ∀ e ∈ slots, e.isEmpty = false) : listed slots = slots := by
  refine List.takeWhile_eq_self_iff.mpr fun e he => ?_
  rw [h e he]
  rfl

/-- A creation that grows exactly the directories without a deleted listed slot does so only
to full ones when there is such a slot or nothing behind the listing. -/
theorem grownWhenFull_iff (h : ((∃ e ∈ listed slots, e.isValid = false) ∧ k' = k) ∨
    ((∀ e ∈ listed slots, e.isValid = true) ∧ k' = k + 1)) : GrownWhenFull slots k k' ↔ searchCovers slots = true := by
  rw [GrownWhenFull,searchCovers,Bool.or_eq_true,List.any_eq_true,List.all_eq_true]
  rcases h with ⟨⟨e,he,hv⟩,rfl⟩ | ⟨hall,rfl⟩
  · obtain ⟨hmem,hused⟩ := mem_of_listed he
    have hfree : hasFreeSlot slots = true := List.any_eq_true.mpr ⟨e,hmem,by rw [hv]; rfl⟩
    rw [isValid_eq_of_used hused,Bool.not_eq_false'] at hv
    exact iff_of_true (if_pos hfree).symm (.inl ⟨e,he,hv⟩)
  · have hnone : ¬ ∃ e ∈ listed slots, e.isDeleted = true := by
      rintro ⟨e,he,hdel⟩
      have := hall e he
      rw [isValid_eq_of_used (mem_of_listed he).2,hdel] at this
      cases this
    cases hfree : hasFreeSlot slots with
    | true =>
      obtain ⟨e,he,hv⟩ := List.any_eq_true.mp hfree
      refine iff_of_false (by simp) ?_
      rintro (hdel | hused)
      · exact hnone hdel
      · rw [listed_of_no_unused fun e he => by simpa using hused e he] at hall
        rw [hall e he] at hv
        cases hv
    | false =>
      refine iff_of_true (by simp) (.inr fun e he => ?_)
      have hv := List.any_eq_false.mp hfree e he
      rw [Bool.not_eq_true,Bool.not_eq_false'] at hv
      rw [DirectoryEntry.isEmpty_of_valid hv]
      rfl

/-- The chain of the directory behind a creation in it. -/
theorem Created.length_chain {attrs : UInt8} (h : Created drv v T d name attrs e w T') (hd : T.Dir d) :
    ((∃ e ∈ listed (T.slots d), e.isValid = false) ∧ (T'.chain d).length = (T.chain d).length) ∨
      ((∀ e ∈ listed (T.slots d), e.isValid = true) ∧ (T'.chain d).length = (T.chain d).length + 1) := by
  obtain ⟨k,u,T₁,hclaim,hfree,rfl,-⟩ := h.place
  have hno := hclaim.own.stored.free_no_object (mem_freeClusters.mp (hfree ▸ List.mem_cons_self)).2
  have hne : d ≠ e.getFirstCluster := fun he => (hclaim.dir hd).1 (he ▸ hno)
  rw [Tree.setSlot_chain,Tree.add_chain,Function.update_of_ne hne]
  rcases hclaim.how with ⟨rfl,-,e',hk,hv⟩ | ⟨hall,-,hexp⟩
  · exact .inl ⟨⟨e',List.mem_of_getElem? hk,hv⟩,rfl⟩
  · obtain ⟨x,rfl,-⟩ := hexp.tree
    refine .inr ⟨hall,?_⟩
    rw [Tree.grow_chain,Function.update_self,List.length_append,List.length_singleton]

section Create
variable (G : Geometry drv) {r : FatReply}
include G

/-- A creation below a path that returned a handle has made an entry in the directory there. -/
private theorem creation_creates (hs : Holds drv t) (ho : Own drv (viewOf drv t) T)
    {f : FileNodeHandle → FsProg Disk FileNodeHandle} {attrs : UInt8}
    (hfile : ∀ {id d q a}, decodeNodeId id = (d,q,a) → isDirectory a = false → f id = Prog.fail .notDirectory)
    (hruns : ∀ {id d q a}, decodeNodeId id = (d,q,a) → (isDirectory a = true → T.Dir d) → ∃ r w T',
      (onDisk drv).Runs (f id) (viewOf drv t) r w ∧ CreateResult drv (viewOf drv t) T d name attrs r w T')
    (hx : (do let parent ← findNode drv path; let id ← f parent; pure (FatReply.handle id) : FsProg Disk FatReply) t =
      .ok (.ok r,u)) :
    ∃ parent t₁ e T', findNode drv path t = .ok (.ok parent,t₁) ∧ T.Dir (decodeNodeId parent).1 ∧ Own drv (viewOf drv u) T' ∧
      Created drv (viewOf drv t) T (decodeNodeId parent).1 name attrs e (viewOf drv u) T' := by
  obtain ⟨parent,t₁,hfind,hx⟩ := Prog.bind_returns_ok hx
  obtain ⟨id,u',hcreate,hx⟩ := Prog.bind_returns_ok hx
  cases hx
  rcases findNode_handled G ho.toSound path with ⟨err,hrun⟩ | ⟨parent',e,d,hrun,-,hh⟩
  · cases (hrun.returns hs hfind).1
  · obtain ⟨heq,hs₁,hview⟩ := hrun.returns hs hfind
    cases heq
    obtain ⟨c,q,a,hid,hdir⟩ := hh.parent G ho
    cases ha : isDirectory a with
    | false =>
      rw [hfile hid ha] at hcreate
      cases hcreate
    | true =>
      obtain ⟨r,w,T',hrun',hres⟩ := hruns hid hdir
      obtain ⟨rfl,-,rfl⟩ := Abstraction.Runs.returns (hview ▸ hrun') hs₁ hcreate
      refine ⟨parent,t₁,?_⟩
      rw [hid]
      cases hres with
      | created hc => exact ⟨_,_,hfind,hdir ha,hc.own,hc⟩

theorem exec_creates (hs : Holds drv t) (ho : Own drv (viewOf drv t) T) {op : FatOp}
    (hop : op = .createFile path name ∨ op = .createDirectory path name) (hx : exec drv p op t = .ok (.ok r,u)) :
    ∃ parent t₁ attrs e T', findNode drv path t = .ok (.ok parent,t₁) ∧ T.Dir (decodeNodeId parent).1 ∧
      Own drv (viewOf drv u) T' ∧ Created drv (viewOf drv t) T (decodeNodeId parent).1 name attrs e (viewOf drv u) T' := by
  rcases hop with rfl | rfl
  · obtain ⟨parent,t₁,e,T',h⟩ := creation_creates G hs ho (f := fun id => createFile drv id name)
      (fun hid ha => by simp only [createFile,hid,ha]; rfl) (fun hid hd => createFile_runs G ho hid hd name) hx
    exact ⟨parent,t₁,_,e,T',h⟩
  · obtain ⟨parent,t₁,e,T',h⟩ := creation_creates G hs ho (f := fun id => createDirectory drv id name)
      (fun hid ha => by simp only [createDirectory,hid,ha]; rfl) (fun hid hd => createDirectory_runs G ho hid hd name) hx
    exact ⟨parent,t₁,_,e,T',h⟩

end Create

/-- After every run that spares the dot entries, a creation that succeeds has grown its
directory only when full exactly if the search for a slot covered all that is free in it. -/
theorem create_grownWhenFull_iff (h : Fresh p drv s) {ops : List FatOp} {rs : List (Except FileSystemError FatReply)}
    (hc : meets (exec drv p) (sparesDots drv) ops s = true) (hrun : runAll (exec drv p) ops s = .ok (rs,t)) {op : FatOp}
    (hop : op = .createFile path name ∨ op = .createDirectory path name) {r : FatReply}
    (hx : exec drv p op t = .ok (.ok r,u)) :
    ∃ parent t₁ l l', findNode drv path t = .ok (.ok parent,t₁) ∧ Chained drv (viewOf drv t) (decodeNodeId parent).1 l ∧
      Chained drv (viewOf drv u) (decodeNodeId parent).1 l' ∧
      (GrownWhenFull ((viewOf drv t).slots l) l.length l'.length ↔ searchCovers ((viewOf drv t).slots l) = true) := by
  obtain ⟨hs,T,ho⟩ := h.run_inOrder hc hrun
  obtain ⟨parent,t₁,attrs,e,T',hfind,hd,ho',hcreated⟩ := exec_creates h.geometry hs ho hop hx
  refine ⟨parent,t₁,_,_,hfind,ho.stored.chained hd.1,ho'.stored.chained (hcreated.dir hd).1,?_⟩
  rw [ho.stored.slots hd]
  exact grownWhenFull_iff (hcreated.length_chain hd)

/-- The first file of an empty root directory of one cluster. -/
private theorem first_created : ∃ r u, exec (tinyDriver 5) .dev (.createFile ['/'] ['F']) (tinyVolume 5) = .ok (.ok r,u) ∧
    fatOf (tinyDriver 5) u.data 2 = 3 ∧ fatOf (tinyDriver 5) u.data 3 = endOfChain := by
  have htrace : ((exec (tinyDriver 5) .dev (.createFile ['/'] ['F']) (tinyVolume 5)).toOption.map fun x =>
      x.1.toOption.isSome && fatOf (tinyDriver 5) x.2.data 2 == 3 && fatOf (tinyDriver 5) x.2.data 3 == endOfChain) =
        some true := by decide +kernel
  obtain ⟨⟨r,u⟩,hx,hview⟩ := Option.map_eq_some_iff.mp htrace
  rw [Bool.and_eq_true,Bool.and_eq_true,beq_iff_eq,beq_iff_eq] at hview
  obtain ⟨⟨hok,h2⟩,h3⟩ := hview
  cases r with
  | error err => cases hok
  | ok r => exact ⟨r,u,of_toOption hx,h2,h3⟩

theorem create_grownWhenFull_iff_tiny : ∃ r u parent t₁ l l',
    exec (tinyDriver 5) .dev (.createFile ['/'] ['F']) (tinyVolume 5) = .ok (.ok r,u) ∧
      findNode (tinyDriver 5) ['/'] (tinyVolume 5) = .ok (.ok parent,t₁) ∧
      Chained (tinyDriver 5) (viewOf (tinyDriver 5) (tinyVolume 5)) (decodeNodeId parent).1 l ∧
      Chained (tinyDriver 5) (viewOf (tinyDriver 5) u) (decodeNodeId parent).1 l' ∧
      (GrownWhenFull ((viewOf (tinyDriver 5) (tinyVolume 5)).slots l) l.length l'.length ↔
        searchCovers ((viewOf (tinyDriver 5) (tinyVolume 5)).slots l) = true) := by
  obtain ⟨r,u,hx,-⟩ := first_created
  have hc : meets (exec (tinyDriver 5) .dev) (sparesDots (tinyDriver 5)) [] (tinyVolume 5) = true := rfl
  obtain ⟨parent,t₁,l,l',h⟩ := create_grownWhenFull_iff (tinyVolume_fresh .dev (.inr rfl)) hc rfl (.inl rfl) hx
  exact ⟨r,u,parent,t₁,l,l',hx,h⟩

/-- It takes a second cluster for the root, all of whose sixteen slots were unused. -/
theorem empty_directory_grows : Fresh .dev (tinyDriver 5) (tinyVolume 5) ∧ ∃ r u,
    exec (tinyDriver 5) .dev (.createFile ['/'] ['F']) (tinyVolume 5) = .ok (.ok r,u) ∧
      Chained (tinyDriver 5) (viewOf (tinyDriver 5) (tinyVolume 5)) 2 [2] ∧ Chained (tinyDriver 5) (viewOf (tinyDriver 5) u) 2 [2,3] ∧
      (∀ e ∈ (viewOf (tinyDriver 5) (tinyVolume 5)).slots [2], e.isEmpty = true) ∧
      ¬ GrownWhenFull ((viewOf (tinyDriver 5) (tinyVolume 5)).slots [2]) [2].length [2,3].length := by
  have hfresh := tinyVolume_fresh .dev (n := 5) (.inr rfl)
  obtain ⟨r,u,hx,h2,h3⟩ := first_created
  have hlink : (viewOf (tinyDriver 5) u).next 2 = some 3 := by
    rw [FatView.next,show (viewOf (tinyDriver 5) u).fat 2 = 3 from h2]
    rfl
  have hend : (viewOf (tinyDriver 5) u).next 3 = none := by
    rw [FatView.next,show (viewOf (tinyDriver 5) u).fat 3 = endOfChain from h3]
    rfl
  refine ⟨hfresh,r,u,hx,⟨.last (if_pos hfresh.rootEnds),by decide⟩,⟨.step hlink (.last hend),by decide⟩,by decide +kernel,?_⟩
  rw [GrownWhenFull,if_pos (by decide +kernel)]
  decide

end MofuOS.Filesystem.Fat32.Fat32Driver
