import MofuOS.Filesystem.Fat32.Integrity
import MofuOS.Filesystem.Fat32.Names

/-! The stored names in a directory. A creation compares the name it is given with the listed spellings
of the entries, which is not the form in which it stores the name. -/
namespace MofuOS.Filesystem.Fat32
open Lib Io

namespace DirectoryEntry
variable {e e' : DirectoryEntry}

/-- What a listing of a directory shows. -/
def isVisible (e : DirectoryEntry) : Bool := e.isValid && !e.isVolumeId

theorem getFilename_congr (h : e.fullName = e'.fullName) : e.getFilename = e'.getFilename := by
  obtain ⟨hname,hext⟩ := List.append_inj h (by simp)
  rw [getFilename,getFilename,getStem,getStem,hname,hext]

theorem isValid_of_visible (h : e.isVisible = true) : e.isValid = true := by
  rw [isVisible,Bool.and_eq_true] at h
  exact h.1

end DirectoryEntry

/-- The visible slots of a directory are all listed, under different names. -/
structure NamesApart (slots : List DirectoryEntry) : Prop where
  apart : ∀ (i j : Nat) (e e' : DirectoryEntry), slots[i]? = some e → slots[j]? = some e' → e.isVisible = true →
    e'.isVisible = true → e.fullName = e'.fullName → i = j
  shown : ∀ (i : Nat) (e : DirectoryEntry), slots[i]? = some e → e.isVisible = true → (listed slots)[i]? = some e

namespace NamesApart
variable {slots : List DirectoryEntry} {e e' : DirectoryEntry} {k : Nat}

theorem append_unused (h : NamesApart slots) (n : Nat) : NamesApart (slots ++ List.replicate n .createEmpty) := by
  have hold : ∀ {i : Nat} {e : DirectoryEntry}, (slots ++ List.replicate n DirectoryEntry.createEmpty)[i]? = some e → e.isVisible = true →
      slots[i]? = some e := by
    intro i e hi hv
    rw [List.getElem?_append] at hi
    split_ifs at hi
    · exact hi
    · rw [List.eq_of_mem_replicate (List.mem_of_getElem? hi)] at hv
      cases hv
  refine ⟨fun i j e e' hi hj hv hv' => h.apart i j e e' (hold hi hv) (hold hj hv') hv hv',fun i e hi hv => ?_⟩
  refine listed_of_front hi fun j hj x hx => ?_
  have hlist := h.shown i e (hold hi hv) hv
  have hlt := (List.getElem?_eq_some_iff.mp (hold hi hv)).1
  rw [List.getElem?_append_left (by omega)] at hx
  exact listed_front hlist hj hx

/-- A used slot is put behind used ones; if it is visible, its name is new. -/
theorem set_front (h : NamesApart slots) (he : e.isEmpty = false)
    (hfront : ∀ (i : Nat) (x : DirectoryEntry), i < k → slots[i]? = some x → x.isEmpty = false)
    (hnew : e.isVisible = true → ∀ (i : Nat) (e' : DirectoryEntry), i ≠ k → slots[i]? = some e' → e'.isVisible = true → e'.fullName ≠ e.fullName) :
    NamesApart (slots.set k e) := by
  have hcases : ∀ {i : Nat} {x : DirectoryEntry}, (slots.set k e)[i]? = some x → (i = k ∧ x = e) ∨ (i ≠ k ∧ slots[i]? = some x) := by
    intro i x hi
    rw [List.getElem?_set] at hi
    split_ifs at hi with hki
    · exact .inl ⟨hki.symm,(Option.some.inj hi).symm⟩
    · exact .inr ⟨fun heq => hki heq.symm,hi⟩
  refine ⟨fun i j x y hi hj hx hy heq => ?_,fun i x hi hx => listed_of_front hi fun j hj y hy => ?_⟩
  · rcases hcases hi with ⟨rfl,rfl⟩ | ⟨hik,hi'⟩ <;> rcases hcases hj with ⟨hjk,rfl⟩ | ⟨hjk,hj'⟩
    · exact hjk.symm
    · exact absurd heq.symm (hnew hx j y hjk hj' hy)
    · exact absurd heq (hnew hy i x hik hi' hx)
    · exact h.apart i j x y hi' hj' hx hy heq
  · rcases hcases hy with ⟨-,rfl⟩ | ⟨hjk,hy'⟩
    · exact he
    · rcases hcases hi with ⟨rfl,rfl⟩ | ⟨-,hi'⟩
      · exact hfront j y (by omega) hy'
      · exact listed_front (h.shown i x hi' hx) hj hy'

/-- A listed slot is rewritten under its old name, or marked. -/
theorem set_same (h : NamesApart slots) (hk : (listed slots)[k]? = some e) (he : e'.isEmpty = false)
    (hsame : e'.isVisible = true → e.isVisible = true ∧ e'.fullName = e.fullName) : NamesApart (slots.set k e') := by
  refine h.set_front he (fun i x hi hx => listed_front hk hi.le hx) fun hv i x hik hi hx heq => ?_
  obtain ⟨hv',hname⟩ := hsame hv
  exact hik (h.apart i k x e hi (listed_getElem? hk).1 hx hv' (heq.trans hname))

end NamesApart

namespace Fat32Driver
variable {drv : Fat32Driver} {p : Profile} {s t : Disk} {v w : FatView} {T T' : Tree} {c d k n : Nat} {e : DirectoryEntry}
  {name : List Char} {attrs : UInt8}

/-- The name does not start with a zero byte, and it reads back from its entry as it was given or no visible
entry of the directory is stored under it. -/
def takesNewName (drv : Fat32Driver) (path name : List Char) (s : Disk) : Bool :=
  match DirectoryEntry.createEmpty.setFilename name, findNode drv path s with
  | .ok new, .ok (.ok id,_) =>
    match readDirectoryEntries drv (decodeNodeId id).1 s with
    | .ok (.ok entries,_) =>
      new.firstByte != 0 && (new.getFilename == utf8 name || entries.all fun e => !(e.isVisible && e.fullName == new.fullName))
    | _ => true
  | _, _ => true

/-- The creations take new names only. -/
def takesNewNames (drv : Fat32Driver) : FatOp → Disk → Bool
  | .createFile path name, s => takesNewName drv path name s
  | .createDirectory path name, s => takesNewName drv path name s
  | _, _ => true

/-- No reachable directory lists two visible entries with the same 11 bytes. -/
def UniqueNames (drv : Fat32Driver) (s : Disk) : Prop :=
  ∀ (d : Nat) (entries : List DirectoryEntry) (i j : Nat) (e e' : DirectoryEntry), Reachable drv s d → Lists drv s d entries →
    entries[i]? = some e → entries[j]? = some e' → e.isVisible = true → e'.isVisible = true → e.fullName = e'.fullName → i = j

/-- The visible slots of every directory are listed under different names. -/
def AllApart (T : Tree) : Prop := ∀ d, T.Dir d → NamesApart (T.slots d)

namespace AllApart

theorem expanded (h : AllApart T) (hd : T.Dir d) (hx : Expanded drv v T d w T') : AllApart T' := by
  obtain ⟨x,rfl,-⟩ := hx.tree
  exact Tree.EachDir.grow h hd.1 fun hapart => hapart.append_unused _

/-- The slots of a new directory: its dot entries have different names. -/
private theorem newSlots_apart (drv : Fat32Driver) (b : Bool) (x d : Nat) : NamesApart (newSlots drv b x d) := by
  have hempty : NamesApart (unusedSlots drv) := by
    have hnil : NamesApart [] := ⟨(fun _ _ _ _ hi => nomatch hi),fun _ _ hi => nomatch hi⟩
    exact hnil.append_unused (slotsPerCluster drv)
  have hunused : ∀ {i : Nat} {e : DirectoryEntry}, (unusedSlots drv)[i]? = some e → e.isVisible = false := by
    intro i e hi
    rw [List.eq_of_mem_replicate (List.mem_of_getElem? hi)]
    rfl
  cases b with
  | false => exact hempty
  | true =>
    have hfirst : ∀ {i : Nat} {e : DirectoryEntry}, ((unusedSlots drv).set 0 (.createDotEntry x))[i]? = some e →
        e = .createDotEntry x ∨ (i ≠ 0 ∧ e.isVisible = false) := by
      intro i e hi
      rw [List.getElem?_set] at hi
      split_ifs at hi with h0
      · exact .inl (Option.some.inj hi).symm
      · exact .inr ⟨Ne.symm h0,hunused hi⟩
    refine NamesApart.set_front ?_ rfl (fun i y hi hy => ?_) fun _ i y hi hy hv => ?_
    · refine hempty.set_front rfl (fun i y hi => absurd hi (Nat.not_lt_zero i)) fun _ i y _ hy hv => ?_
      rw [hunused hy] at hv
      cases hv
    · rcases hfirst hy with rfl | ⟨h0,-⟩
      · rfl
      · omega
    · rcases hfirst hy with rfl | ⟨-,hno⟩
      · intro heq
        have hdots : ([0x2E,0x20] : List UInt8) = [0x2E,0x2E] := congrArg (List.take 2) heq
        exact absurd hdots (by decide)
      · rw [hno] at hv
        cases hv

theorem created (h : AllApart T) (hd : T.Dir d) (hc : Created drv v T d name attrs e w T')
    (hempty : e.isEmpty = false) (hnew : ∀ e' ∈ listed (T.slots d), e'.isVisible = true → e'.fullName ≠ e.fullName) :
    AllApart T' := by
  obtain ⟨k,u,T₁,hclaim,hfree,rfl,-⟩ := hc.place
  have h₁ : AllApart T₁ := by
    rcases hclaim.how with ⟨rfl,-⟩ | ⟨-,-,hexp⟩
    · exact h
    · exact h.expanded hd hexp
  have hlist : listed (T₁.slots d) = listed (T.slots d) := by
    rcases hclaim.how with ⟨rfl,-⟩ | ⟨-,-,hexp⟩
    · rfl
    · obtain ⟨x,rfl,-⟩ := hexp.tree
      rw [Tree.grow_slots,Function.update_self,unusedSlots,listed_append_unused]
  have hdx : d ≠ e.getFirstCluster := by
    intro hdx
    have hx0 := (mem_freeClusters.mp (hfree ▸ List.mem_cons_self)).2
    exact (hclaim.dir hd).1 (hdx ▸ hclaim.own.stored.free_no_object hx0)
  have hadd : AllApart (T₁.add e.getFirstCluster e.isDirectory d (newSlots drv e.isDirectory e.getFirstCluster d)) :=
    Tree.EachDir.add h₁ (newSlots_apart drv ..)
  refine Tree.EachDir.setSlot hadd fun _ => ?_
  have hapart := h₁ d (hclaim.dir hd)
  rw [Tree.add_slots,Function.update_of_ne hdx]
  refine hapart.set_front hempty (fun i x hi hx => ?_) fun _ i e' _ hi hv => ?_
  · exact DirectoryEntry.isEmpty_of_valid (hclaim.before i x hi hx)
  · exact hnew e' (hlist ▸ List.mem_of_getElem? (hapart.shown i e' hi hv)) hv

/-- A write keeps the names. -/
theorem written {offset : Nat} {data : List UInt8} (h : AllApart T) (hs : Sound drv v T)
    (hw : Written drv p v T d e offset data w T') : AllApart T' := by
  cases hw with
  | same => exact h
  | full hf _ _ _ => exact Tree.EachDir.withChain h (hf.kind hs)
  | wrote hf _ _ _ _ =>
    refine Tree.EachDir.setSlot (Tree.EachDir.withChain h (hf.kind hs)) fun hd => ?_
    have hname : ∀ n, (e.grown n).fullName = e.fullName := fun n => by
      rw [DirectoryEntry.grown]
      split_ifs <;> rfl
    have hlabel : ∀ n, (e.grown n).isVisible = e.isVisible := fun n => by
      rw [DirectoryEntry.isVisible,isValid_grown,DirectoryEntry.grown]
      split_ifs <;> rfl
    refine (h d hf.dir).set_same hf.slot (DirectoryEntry.isEmpty_of_valid ?_) fun hv => ⟨?_,hname _⟩
    · rw [isValid_grown]
      exact hf.getElem?.2
    · rwa [← hlabel]

theorem deleted (h : AllApart T) (hd : T.Dir d) (hx : Deleted drv v T d c w T') : AllApart T' := by
  obtain ⟨k,e,hk,-,-,htree⟩ := hx.slot
  have hset : AllApart (T.setSlot d k e.markDeleted) :=
    Tree.EachDir.setSlot h fun _ => (h d hd).set_same hk rfl fun hv => nomatch hv
  rw [htree]
  split_ifs
  · exact hset
  · exact Tree.EachDir.remove hset

end AllApart

section Step
variable (G : Geometry drv) (hs : Holds drv s) (ho : Own drv (viewOf drv s) T)
include G hs ho

/-- An entry that takes a new name is not stored under the name of a visible one. -/
theorem Created.takesNew {id : FileNodeHandle} {q : Nat} {a : UInt8} {path : List Char}
    (hc : Created drv (viewOf drv s) T d name attrs e w T') (parent : (onDisk drv).Runs (findNode drv path) (viewOf drv s) (.ok id) v)
    (hid : decodeNodeId id = (d,q,a)) (hd : T.Dir d) (hnew : takesNewName drv path name s = true) :
    e.isEmpty = false ∧ ∀ e' ∈ listed (T.slots d), e'.isVisible = true → e'.fullName ≠ e.fullName := by
  obtain ⟨new,hset,hname,hbyte,-⟩ := newEntry_fields hc.entry
  obtain ⟨_,hfind,-⟩ := parent s hs rfl
  obtain ⟨_,hread,-⟩ := ho.readDirectoryEntries_runs G hd s hs rfl
  rw [takesNewName,hset,hfind] at hnew
  simp only [hid,hread,Bool.and_eq_true,Bool.or_eq_true,bne_iff_ne,beq_iff_eq] at hnew
  obtain ⟨h0,hnew⟩ := hnew
  refine ⟨?_,fun e' he' hv heq => ?_⟩
  · rw [DirectoryEntry.isEmpty,hbyte]
    exact beq_eq_false_iff_ne.mpr h0
  · rw [hname] at heq
    rcases hnew with hreads | hall
    · -- the duplicate check has compared this very spelling with the listed one
      refine hc.unlisted e' he' (DirectoryEntry.isDeleted_of_valid (DirectoryEntry.isValid_of_visible hv)) ?_
      rw [DirectoryEntry.getFilename_congr heq,hreads]
    · have := List.all_eq_true.mp hall e' he'
      simp [hv,heq] at this

theorem Change.allApart {op : FatOp} (h : AllApart T) (hop : takesNewNames drv op s = true)
    (hch : Change drv p (viewOf drv s) T op w T') : AllApart T' := by
  cases hch with
  | same => exact h
  | refused hd href =>
    cases href with
    | early => exact h
    | full => exact h
    | expanded _ hexp => exact h.expanded hd hexp
  | createdFile parent hid hd hc =>
    obtain ⟨hempty,hnew⟩ := hc.takesNew G hs ho parent hid hd hop
    exact h.created hd hc hempty hnew
  | createdDirectory parent hid hd hc =>
    obtain ⟨hempty,hnew⟩ := hc.takesNew G hs ho parent hid hd hop
    exact h.created hd hc hempty hnew
  | written _ hw => exact h.written ho.toSound hw
  | deleted hd hx => exact h.deleted hd hx

omit ho in
theorem Sound.uniqueNames (h : Sound drv (viewOf drv s) T) (hapart : AllApart T) : UniqueNames drv s := by
  intro d entries i j e e' hr hl hi hj hv hv' heq
  have hd := (hr.attached G hs h).dir h.ok
  rw [hl.eq_listed G hs h hd] at hi hj
  exact (hapart d hd).apart i j e e' (listed_getElem? hi).1 (listed_getElem? hj).1 hv hv' heq

end Step

/-- A fresh volume lists no more than labels. -/
theorem Fresh.allApart (h : Fresh p drv s) : AllApart (rootTree ((viewOf drv s).slots [2])) := by
  have hno : ∀ e ∈ (viewOf drv s).slots [2], e.isVisible = false := by
    intro e he
    cases hv : e.isValid with
    | false => rw [DirectoryEntry.isVisible,hv,Bool.false_and]
    | true => rw [DirectoryEntry.isVisible,((h.rootEmpty e he).2 hv).1,Bool.not_true,Bool.and_false]
  intro d _
  refine ⟨fun i j e e' hi _ hv => ?_,fun i e hi hv => ?_⟩
  · rw [hno e (List.mem_of_getElem? hi)] at hv
    cases hv
  · rw [hno e (List.mem_of_getElem? hi)] at hv
    cases hv

/-- From a fresh format, every run whose creations take new names keeps the names in each directory unique. -/
theorem run_uniqueNames {ops : List FatOp} {rs : List (Except FileSystemError FatReply)} (h : Fresh p drv s)
    (hc : meets (exec drv p) (fun op s => sparesDots drv op s && takesNewNames drv op s) ops s = true)
    (hrun : runAll (exec drv p) ops s = .ok (rs,t)) : UniqueNames drv t := by
  obtain ⟨ht,T,ho,hapart⟩ := h.run_keeps (I := fun _ T => AllApart T) (fun op s hop => (Bool.and_eq_true .. ▸ hop).1)
    h.allApart (fun hop hs ho hi _ hch => hch.allApart h.geometry hs ho hi (Bool.and_eq_true .. ▸ hop).2) hc hrun
  exact ho.toSound.uniqueNames h.geometry ht hapart

theorem run_uniqueNames_one : ∃ rs t, runAll (exec (tinyDriver 5) .release) [.createFile ['/'] ['F']] (tinyVolume 5) = .ok (rs,t) ∧
    UniqueNames (tinyDriver 5) t := by
  have hfresh := tinyVolume_fresh .release (.inr (rfl : 5 = 5))
  have hc : meets (exec (tinyDriver 5) .release) (fun op s => sparesDots (tinyDriver 5) op s && takesNewNames (tinyDriver 5) op s)
      [.createFile ['/'] ['F']] (tinyVolume 5) = true := by decide +kernel
  have hdots : meets (exec (tinyDriver 5) .release) (sparesDots (tinyDriver 5)) [.createFile ['/'] ['F']] (tinyVolume 5) = true :=
    meets_of_forall fun op hop s => by rw [List.mem_singleton.mp hop]; rfl
  obtain ⟨rs,t,hrun,-⟩ := hfresh.run_returns hdots
  exact ⟨rs,t,hrun,run_uniqueNames hfresh hc hrun⟩

/-- The entry of a is listed as A, so a second creation of a does not find it. -/
theorem lowercase_taken_twice : Fresh .dev smallDriver smallVolume ∧
    ∃ rs t, runAll (exec smallDriver .dev) [.createFile ['/'] ['a'],.createFile ['/'] ['a']] smallVolume = .ok (rs,t) ∧
      ¬ UniqueNames smallDriver t := by
  have htrace : ((runAll (exec smallDriver .dev) [.createFile ['/'] ['a'],.createFile ['/'] ['a']] smallVolume).toOption.map fun x =>
      listingMeets smallDriver 2 (fun entries => entries[0]?.any fun e => entries[1]?.any fun e' =>
        e.isVisible && e'.isVisible && e.fullName == e'.fullName) x.2) = some true := by decide +kernel
  obtain ⟨rs,t,hrun,ht⟩ := runAll_of_view htrace
  refine ⟨smallVolume_fresh .dev,rs,t,hrun,fun h => ?_⟩
  obtain ⟨entries,hlist,ht⟩ := lists_of_meets ht
  obtain ⟨e,he,ht⟩ := (Option.any_eq_true ..).mp ht
  obtain ⟨e',he',ht⟩ := (Option.any_eq_true ..).mp ht
  rw [Bool.and_eq_true,Bool.and_eq_true,beq_iff_eq] at ht
  obtain ⟨⟨hv,hv'⟩,heq⟩ := ht
  have hij := h 2 entries 0 1 e e' .root hlist he he' hv hv' heq
  exact absurd hij (by decide)

end Fat32Driver
end MofuOS.Filesystem.Fat32
