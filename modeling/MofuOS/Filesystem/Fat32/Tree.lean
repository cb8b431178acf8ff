import MofuOS.Filesystem.Fat32.Direntry
import Mathlib.Logic.Function.Basic

/-! What a FAT volume stores: files and directories that own chains of clusters, the slots
of the directories, and the rules that make the slots a tree. -/
namespace MofuOS.Filesystem.Fat32
open Lib

/-- A live entry other than the dot entries. -/
def DirectoryEntry.isChild (e : DirectoryEntry) : Bool := e.isValid && e.firstByte != 0x2E

/-- The files and directories of a volume, each named by its first cluster. An object owns a
non-empty chain; objects that no slot refers to any more may remain. -/
structure Tree where
  chain : Nat → List Nat
  isDir : Nat → Bool
  parent : Nat → Nat
  depth : Nat → Nat
  slots : Nat → List DirectoryEntry

namespace Tree
variable {T T' : Tree} {c d i j k n o : Nat} {b : Bool} {e e' : DirectoryEntry} {z : List DirectoryEntry}

def Dir (T : Tree) (d : Nat) : Prop := T.chain d ≠ [] ∧ T.isDir d = true

/-- The object behind a live entry of directory d, in clusters of n bytes. -/
structure ChildOk (n : Nat) (T : Tree) (d : Nat) (e : DirectoryEntry) : Prop where
  object : T.chain e.getFirstCluster ≠ []
  notRoot : e.getFirstCluster ≠ 2
  kind : e.isDirectory = T.isDir e.getFirstCluster
  parent : T.parent e.getFirstCluster = d
  depth : T.depth e.getFirstCluster = T.depth d + 1
  dirSize : e.isDirectory = true → e.fileSize = 0
  fileSize : e.isDirectory = false → e.fileSize.toNat ≤ (T.chain e.getFirstCluster).length * n

/-- A slot of directory d. Cluster 0 stands for a file without clusters or a label, and in a
dot-dot entry for the root. -/
structure SlotOk (n : Nat) (T : Tree) (d : Nat) (e : DirectoryEntry) : Prop where
  number : e.getFirstCluster ≤ maxClusterNumber
  dot : e.isValid = true → e.firstByte = 0x2E → d ≠ 2 ∧ e.isDirectory = true ∧ e.fileSize = 0 ∧
    (e.getFirstCluster = d ∨ e.getFirstCluster = T.parent d ∨ e.getFirstCluster = 0)
  hollow : e.isChild = true → e.getFirstCluster = 0 → e.isDirectory = false
  child : e.isChild = true → e.getFirstCluster ≠ 0 → ChildOk n T d e

/-- The slots form a tree: every live entry has its own object, one level below. -/
structure Ok (n : Nat) (T : Tree) : Prop where
  root : T.Dir 2
  slot : ∀ {d : Nat} {e : DirectoryEntry}, T.Dir d → e ∈ T.slots d → SlotOk n T d e
  unique : ∀ {d i j : Nat} {e e' : DirectoryEntry}, T.Dir d → (T.slots d)[i]? = some e → (T.slots d)[j]? = some e' → e.isChild = true →
    e'.isChild = true → e.getFirstCluster = e'.getFirstCluster → e.getFirstCluster ≠ 0 → i = j

/-- What only this driver's own volumes keep: dot-dot entries name the parent, and no deleted
slot in front of a live entry still carries that entry's cluster. -/
structure Tidy (T : Tree) : Prop where
  dots : ∀ {d : Nat} {e : DirectoryEntry}, T.Dir d → e ∈ T.slots d → e.isValid = true → e.firstByte = 0x2E → e.getFirstCluster ≠ 0
  stale : ∀ {d i j : Nat} {e e' : DirectoryEntry}, T.Dir d → (T.slots d)[i]? = some e → (T.slots d)[j]? = some e' → i < j →
    e.isDeleted = true → e'.isChild = true → e.getFirstCluster = e'.getFirstCluster → e'.getFirstCluster = 0

/-- The directories that live entries lead to from the root. -/
inductive Attached (T : Tree) : Nat → Prop where
  | root : Attached T 2
  | child {d : Nat} {e : DirectoryEntry} (h : Attached T d) (he : e ∈ T.slots d) (hc : e.isChild = true)
      (hd : e.isDirectory = true) : Attached T e.getFirstCluster

/-- A live directory entry has clusters. -/
theorem SlotOk.dirChild (h : SlotOk n T d e) (hc : e.isChild = true) (hd : e.isDirectory = true) : ChildOk n T d e := by
  refine h.child hc fun h0 => ?_
  rw [h.hollow hc h0] at hd
  cases hd

theorem Attached.dir (ho : Ok n T) (h : Attached T d) : T.Dir d := by
  induction h with
  | root => exact ho.root
  | child h he hc hd ih =>
    have hch := (ho.slot ih he).dirChild hc hd
    exact ⟨hch.object,hch.kind ▸ hd⟩

/-- The parent of an attached directory is attached as well, one level above it. -/
theorem Attached.up (ho : Ok n T) (h : Attached T d) (h2 : d ≠ 2) :
    Attached T (T.parent d) ∧ T.depth d = T.depth (T.parent d) + 1 := by
  cases h with
  | root => exact absurd rfl h2
  | child h he hc hd =>
    have hch := (ho.slot (h.dir ho) he).dirChild hc hd
    rw [hch.parent]
    exact ⟨h,hch.depth⟩

/-- A live entry of an attached directory shares its cluster with no other live entry of it,
the dot entries included. -/
theorem Ok.alone (ho : Ok n T) (hd : Attached T d) (hi : (T.slots d)[i]? = some e) (hj : (T.slots d)[j]? = some e')
    (hc : e.isChild = true) (hv : e'.isValid = true) (heq : e'.getFirstCluster = e.getFirstCluster)
    (h0 : e.getFirstCluster ≠ 0) : j = i := by
  have hdir := hd.dir ho
  have hch := (ho.slot hdir (List.mem_of_getElem? hi)).child hc h0
  by_cases hdot : e'.firstByte = 0x2E
  · -- a dot entry leads to this directory or to one further up, a live entry further down
    obtain ⟨h2,-,-,hself | hup | hzero⟩ := (ho.slot hdir (List.mem_of_getElem? hj)).dot hv hdot
    · have := hch.depth
      rw [← heq,hself] at this
      omega
    · have := hch.depth
      rw [← heq,hup] at this
      have := (hd.up ho h2).2
      omega
    · exact absurd (heq.symm.trans hzero) h0
  · have hc' : e'.isChild = true := by
      rw [DirectoryEntry.isChild,hv]
      simpa using hdot
    exact ho.unique hdir hj hi hc' hc heq fun hz => h0 (heq.symm.trans hz)

/-- T' has every object of T, with the same place in the tree and at least its clusters. -/
def Extends (T' T : Tree) : Prop :=
  ∀ c, T.chain c ≠ [] → T'.chain c ≠ [] ∧ (T.chain c).length ≤ (T'.chain c).length ∧ T'.isDir c = T.isDir c ∧
    T'.parent c = T.parent c ∧ T'.depth c = T.depth c

theorem ChildOk.mono (h : ChildOk n T d e) (hx : Extends T' T) (hd : T.chain d ≠ []) : ChildOk n T' d e := by
  obtain ⟨hobj,hlen,hdir,hpar,hdepth⟩ := hx _ h.object
  refine ⟨hobj,h.notRoot,h.kind.trans hdir.symm,hpar.trans h.parent,?_,h.dirSize,fun hf => ?_⟩
  · rw [hdepth,(hx d hd).2.2.2.2]
    exact h.depth
  · exact (h.fileSize hf).trans (Nat.mul_le_mul_right n hlen)

theorem SlotOk.mono (h : SlotOk n T d e) (hx : Extends T' T) (hd : T.chain d ≠ []) : SlotOk n T' d e := by
  refine ⟨h.number,fun hv hb => ?_,h.hollow,fun hc h0 => (h.child hc h0).mono hx hd⟩
  rw [(hx d hd).2.2.2.1]
  exact h.dot hv hb

theorem slotOk_of_not_valid (hn : e.getFirstCluster ≤ maxClusterNumber) (hv : e.isValid = false) : SlotOk n T d e := by
  have hc : e.isChild = false := by rw [DirectoryEntry.isChild,hv,Bool.false_and]
  exact ⟨hn,by simp [hv],by simp [hc],by simp [hc]⟩

theorem slotOk_createEmpty : SlotOk n T d .createEmpty := slotOk_of_not_valid (by decide) (by decide)

/-- One more cluster for object o; z are the slots it adds when o is a directory. -/
def grow (T : Tree) (o c : Nat) (z : List DirectoryEntry) : Tree :=
  { T with
    chain := Function.update T.chain o (T.chain o ++ [c])
    slots := Function.update T.slots o (T.slots o ++ z) }

/-- Other clusters for object o, which is no directory. -/
def withChain (T : Tree) (o : Nat) (l : List Nat) : Tree := { T with chain := Function.update T.chain o l }

def setSlot (T : Tree) (d k : Nat) (e : DirectoryEntry) : Tree :=
  { T with slots := Function.update T.slots d ((T.slots d).set k e) }

/-- A new object c below d, to which no slot refers yet. -/
def add (T : Tree) (c : Nat) (b : Bool) (d : Nat) (z : List DirectoryEntry) : Tree where
  chain := Function.update T.chain c [c]
  isDir := Function.update T.isDir c b
  parent := Function.update T.parent c d
  depth := Function.update T.depth c (T.depth d + 1)
  slots := Function.update T.slots c z

def remove (T : Tree) (c : Nat) : Tree := { T with chain := Function.update T.chain c [] }

section Fields
variable (T : Tree) (c d k o : Nat) (b : Bool) (e : DirectoryEntry) (z : List DirectoryEntry)

@[simp] theorem grow_chain : (T.grow o c z).chain = Function.update T.chain o (T.chain o ++ [c]) := rfl
@[simp] theorem grow_slots : (T.grow o c z).slots = Function.update T.slots o (T.slots o ++ z) := rfl
@[simp] theorem grow_isDir : (T.grow o c z).isDir = T.isDir := rfl
@[simp] theorem withChain_chain (l : List Nat) : (T.withChain o l).chain = Function.update T.chain o l := rfl
@[simp] theorem withChain_slots (l : List Nat) : (T.withChain o l).slots = T.slots := rfl
@[simp] theorem withChain_isDir (l : List Nat) : (T.withChain o l).isDir = T.isDir := rfl
@[simp] theorem setSlot_chain : (T.setSlot d k e).chain = T.chain := rfl
@[simp] theorem setSlot_slots : (T.setSlot d k e).slots = Function.update T.slots d ((T.slots d).set k e) := rfl
@[simp] theorem setSlot_isDir : (T.setSlot d k e).isDir = T.isDir := rfl
@[simp] theorem add_chain : (T.add c b d z).chain = Function.update T.chain c [c] := rfl
@[simp] theorem add_slots : (T.add c b d z).slots = Function.update T.slots c z := rfl
@[simp] theorem add_isDir : (T.add c b d z).isDir = Function.update T.isDir c b := rfl
@[simp] theorem remove_chain : (T.remove c).chain = Function.update T.chain c [] := rfl
@[simp] theorem remove_slots : (T.remove c).slots = T.slots := rfl
@[simp] theorem remove_isDir : (T.remove c).isDir = T.isDir := rfl

end Fields

/-- A slot of the new object itself. -/
theorem add_setSlot : (T.add c b d z).setSlot c k e = T.add c b d (z.set k e) := by
  simp only [setSlot,add,Function.update_self,Function.update_idem]

theorem grow_extends (T : Tree) (o c : Nat) (z : List DirectoryEntry) : Extends (T.grow o c z) T := by
  intro x hx
  refine ⟨?_,?_,rfl,rfl,rfl⟩ <;> by_cases hxo : x = o
  · subst hxo
    simp [grow]
  · simpa [grow,Function.update_of_ne hxo] using hx
  · subst hxo
    simp [grow]
  · simp [grow,Function.update_of_ne hxo]

theorem add_extends (hc : T.chain c = []) : Extends (T.add c b d z) T := by
  intro x hx
  have hxc : x ≠ c := by
    rintro rfl
    exact hx hc
  simp [add,Function.update_of_ne hxc,hx]

theorem setSlot_extends (T : Tree) (d k : Nat) (e : DirectoryEntry) : Extends (T.setSlot d k e) T :=
  fun _ hx => ⟨hx,Nat.le_refl _,rfl,rfl,rfl⟩

private theorem dir_grow (h : (T.grow o c z).Dir d) (ho : T.chain o ≠ []) : T.Dir d := by
  refine ⟨?_,h.2⟩
  by_cases hd : d = o
  · rwa [hd]
  · have := h.1
    rwa [grow_chain,Function.update_of_ne hd] at this

private theorem slots_grow {m : Nat} (h : ((T.grow o c (List.replicate m .createEmpty)).slots d)[i]? = some e) :
    (T.slots d)[i]? = some e ∨ e = .createEmpty := by
  by_cases hd : d = o
  · subst hd
    rw [grow_slots,Function.update_self,List.getElem?_append] at h
    split_ifs at h
    · exact .inl h
    · exact .inr (List.eq_of_mem_replicate (List.mem_of_getElem? h))
  · rw [grow_slots,Function.update_of_ne hd] at h
    exact .inl h

/-- A chain grows by one cluster of unused slots. -/
theorem Ok.grow (h : Ok n T) (ho : T.chain o ≠ []) (m : Nat) :
    Ok n (T.grow o c (List.replicate m .createEmpty)) := by
  have hx := grow_extends T o c (List.replicate m .createEmpty)
  refine ⟨⟨(hx 2 h.root.1).1,h.root.2⟩,fun {d e} hd he => ?_,fun {d i j e e'} hd hi hj hc hc' heq h0 => ?_⟩
  · have hd' := dir_grow hd ho
    obtain ⟨i,hi⟩ := List.getElem?_of_mem he
    rcases slots_grow hi with hold | rfl
    · exact (h.slot hd' (List.mem_of_getElem? hold)).mono hx hd'.1
    · exact slotOk_createEmpty
  · rcases slots_grow hi with hi | rfl
    · rcases slots_grow hj with hj | rfl
      · exact h.unique (dir_grow hd ho) hi hj hc hc' heq h0
      · exact absurd hc' (by decide)
    · exact absurd hc (by decide)

theorem Tidy.grow (h : Tidy T) (ho : T.chain o ≠ []) (m : Nat) :
    Tidy (T.grow o c (List.replicate m .createEmpty)) := by
  refine ⟨fun {d e} hd he hv hb => ?_,fun {d i j e e'} hd hi hj hij hdel hc heq => ?_⟩
  · obtain ⟨i,hi⟩ := List.getElem?_of_mem he
    rcases slots_grow hi with hold | rfl
    · exact h.dots (dir_grow hd ho) (List.mem_of_getElem? hold) hv hb
    · exact absurd hv (by decide)
  · rcases slots_grow hi with hi | rfl
    · rcases slots_grow hj with hj | rfl
      · exact h.stale (dir_grow hd ho) hi hj hij hdel hc heq
      · exact absurd hc (by decide)
    · exact absurd hdel (by decide)

section File
variable {l : List Nat} (hf : T.isDir o = false)
include hf

theorem dir_withChain : (T.withChain o l).Dir d ↔ T.Dir d := by
  have hne : T.isDir d = true → d ≠ o := by
    rintro hd rfl
    rw [hf] at hd
    cases hd
  constructor
  · rintro ⟨hc,hd⟩
    rw [withChain_chain,Function.update_of_ne (hne hd)] at hc
    exact ⟨hc,hd⟩
  · rintro ⟨hc,hd⟩
    refine ⟨?_,hd⟩
    rw [withChain_chain,Function.update_of_ne (hne hd)]
    exact hc

/-- A file keeps its place when it gets more clusters. -/
theorem Ok.withChain (h : Ok n T) (hl : l ≠ []) (hlen : (T.chain o).length ≤ l.length) : Ok n (T.withChain o l) := by
  have hx : Extends (T.withChain o l) T := by
    intro x hx
    by_cases hxo : x = o
    · subst hxo
      refine ⟨?_,?_,rfl,rfl,rfl⟩
      · rwa [withChain_chain,Function.update_self]
      · rwa [withChain_chain,Function.update_self]
    · rw [withChain_chain,Function.update_of_ne hxo]
      exact ⟨hx,Nat.le_refl _,rfl,rfl,rfl⟩
  refine ⟨(dir_withChain hf).mpr h.root,fun {d e} hd he => ?_,fun {d i j e e'} hd => h.unique ((dir_withChain hf).mp hd)⟩
  have hd' := (dir_withChain hf).mp hd
  exact (h.slot hd' he).mono hx hd'.1

theorem Tidy.withChain (h : Tidy T) : Tidy (T.withChain o l) :=
  ⟨fun hd => h.dots ((dir_withChain hf).mp hd),fun hd => h.stale ((dir_withChain hf).mp hd)⟩

end File

theorem slots_setSlot {x : Nat} (h : ((T.setSlot d k e).slots x)[i]? = some e') :
    (x = d ∧ i = k ∧ e' = e) ∨ (¬ (x = d ∧ i = k) ∧ (T.slots x)[i]? = some e') := by
  by_cases hx : x = d
  · subst hx
    rw [setSlot_slots,Function.update_self,List.getElem?_set] at h
    split_ifs at h with hki hlen
    · exact .inl ⟨rfl,hki.symm,(Option.some.inj h).symm⟩
    · exact .inr ⟨fun hh => hki hh.2.symm,h⟩
  · rw [setSlot_slots,Function.update_of_ne hx] at h
    exact .inr ⟨fun hh => hx hh.1,h⟩

/-- A slot is rewritten; a live entry in it shares its cluster with no other live entry. -/
theorem Ok.setSlot (h : Ok n T) (he : T.Dir d → SlotOk n T d e)
    (halone : e.isChild = true → e.getFirstCluster ≠ 0 → ∀ i e', i ≠ k → (T.slots d)[i]? = some e' →
      e'.isChild = true → e'.getFirstCluster ≠ e.getFirstCluster) : Ok n (T.setSlot d k e) := by
  have hx := setSlot_extends T d k e
  refine ⟨h.root,fun {x e₁} hdir he₁ => ?_,fun {x i j e₁ e₂} hdir hi hj hc hc' heq h0 => ?_⟩
  · have hdir' : T.Dir x := hdir
    obtain ⟨i,hi⟩ := List.getElem?_of_mem he₁
    rcases slots_setSlot hi with ⟨rfl,-,rfl⟩ | ⟨-,hold⟩
    · exact (he hdir').mono hx hdir'.1
    · exact (h.slot hdir' (List.mem_of_getElem? hold)).mono hx hdir'.1
  · rcases slots_setSlot hi with ⟨rfl,rfl,rfl⟩ | ⟨hni,hi'⟩ <;> rcases slots_setSlot hj with ⟨hxd,hjk,he₂⟩ | ⟨hnj,hj'⟩
    · exact hjk.symm
    · exact absurd heq.symm (halone hc h0 j e₂ (fun e => hnj ⟨rfl,e⟩) hj' hc')
    · subst hxd hjk he₂
      exact absurd heq (halone hc' (fun hz => h0 (heq.trans hz)) i e₁ (fun e => hni ⟨rfl,e⟩) hi' hc)
    · exact h.unique hdir hi' hj' hc hc' heq h0

theorem Tidy.setSlot (h : Tidy T) (hdot : e.isValid = true → e.firstByte = 0x2E → e.getFirstCluster ≠ 0)
    (hdel : e.isDeleted = true → ∀ j e', k < j → (T.slots d)[j]? = some e' → e'.isChild = true →
      e.getFirstCluster = e'.getFirstCluster → e'.getFirstCluster = 0)
    (hnew : e.isChild = true → ∀ i e', i < k → (T.slots d)[i]? = some e' → e'.isDeleted = true →
      e'.getFirstCluster = e.getFirstCluster → e.getFirstCluster = 0) : Tidy (T.setSlot d k e) := by
  refine ⟨fun {x e₁} hdir he₁ hv hb => ?_,fun {x i j e₁ e₂} hdir hi hj hij hd hc heq => ?_⟩
  · obtain ⟨i,hi⟩ := List.getElem?_of_mem he₁
    rcases slots_setSlot hi with ⟨rfl,-,rfl⟩ | ⟨-,hold⟩
    · exact hdot hv hb
    · exact h.dots hdir (List.mem_of_getElem? hold) hv hb
  · rcases slots_setSlot hi with ⟨rfl,rfl,rfl⟩ | ⟨-,hi'⟩ <;> rcases slots_setSlot hj with ⟨hxd,hjk,he₂⟩ | ⟨-,hj'⟩
    · exact absurd hij (by omega)
    · exact hdel hd j e₂ hij hj' hc heq
    · subst hxd hjk he₂
      exact hnew hc i e₁ hij hi' hd heq
    · exact h.stale hdir hi' hj' hij hd hc heq

private theorem dir_add {x : Nat} (h : (T.add c b d z).Dir x) : x = c ∨ (x ≠ c ∧ T.Dir x) := by
  by_cases hx : x = c
  · exact .inl hx
  · have h1 := h.1
    have h2 := h.2
    rw [add_chain,Function.update_of_ne hx] at h1
    rw [add_isDir,Function.update_of_ne hx] at h2
    exact .inr ⟨hx,h1,h2⟩

private theorem slots_add {x m : Nat} (h : ((T.add c b d (List.replicate m .createEmpty)).slots x)[i]? = some e) :
    (x ≠ c ∧ (T.slots x)[i]? = some e) ∨ e = .createEmpty := by
  by_cases hx : x = c
  · subst hx
    rw [add_slots,Function.update_self] at h
    exact .inr (List.eq_of_mem_replicate (List.mem_of_getElem? h))
  · rw [add_slots,Function.update_of_ne hx] at h
    exact .inl ⟨hx,h⟩

theorem Ok.add (h : Ok n T) (hc : T.chain c = []) (m : Nat) : Ok n (T.add c b d (List.replicate m .createEmpty)) := by
  have hx : Extends (T.add c b d (List.replicate m .createEmpty)) T := add_extends hc
  have hdir : ∀ {x}, x ≠ c → (T.add c b d (List.replicate m .createEmpty)).Dir x → T.Dir x := by
    intro x hxc hd
    rcases dir_add hd with e | ⟨-,hd⟩
    · exact absurd e hxc
    · exact hd
  refine ⟨⟨(hx 2 h.root.1).1,(hx 2 h.root.1).2.2.1.trans h.root.2⟩,fun {x e} hd he => ?_,
    fun {x i j e e'} hd hi hj hc hc' heq h0 => ?_⟩
  · obtain ⟨i,hi⟩ := List.getElem?_of_mem he
    rcases slots_add hi with ⟨hxc,hold⟩ | rfl
    · exact (h.slot (hdir hxc hd) (List.mem_of_getElem? hold)).mono hx (hdir hxc hd).1
    · exact slotOk_createEmpty
  · rcases slots_add hi with ⟨hxc,hi⟩ | rfl
    · rcases slots_add hj with ⟨-,hj⟩ | rfl
      · exact h.unique (hdir hxc hd) hi hj hc hc' heq h0
      · exact absurd hc' (by decide)
    · exact absurd hc (by decide)

theorem Tidy.add (h : Tidy T) (m : Nat) : Tidy (T.add c b d (List.replicate m .createEmpty)) := by
  have hdir : ∀ {x}, x ≠ c → (T.add c b d (List.replicate m .createEmpty)).Dir x → T.Dir x := by
    intro x hxc hd
    rcases dir_add hd with e | ⟨-,hd⟩
    · exact absurd e hxc
    · exact hd
  refine ⟨fun {x e} hd he hv hb => ?_,fun {x i j e e'} hd hi hj hij hdel hc heq => ?_⟩
  · obtain ⟨i,hi⟩ := List.getElem?_of_mem he
    rcases slots_add hi with ⟨hxc,hold⟩ | rfl
    · exact h.dots (hdir hxc hd) (List.mem_of_getElem? hold) hv hb
    · exact absurd hv (by decide)
  · rcases slots_add hi with ⟨hxc,hi⟩ | rfl
    · rcases slots_add hj with ⟨-,hj⟩ | rfl
      · exact h.stale (hdir hxc hd) hi hj hij hdel hc heq
      · exact absurd hc (by decide)
    · exact absurd hdel (by decide)

private theorem dir_remove {x : Nat} (h : (T.remove c).Dir x) : x ≠ c ∧ T.Dir x := by
  by_cases hx : x = c
  · subst hx
    exact absurd (Function.update_self ..) h.1
  · have := h.1
    rw [remove_chain,Function.update_of_ne hx] at this
    exact ⟨hx,this,h.2⟩

/-- An object goes that no live entry refers to. -/
theorem Ok.remove (h : Ok n T) (h2 : c ≠ 2)
    (href : ∀ {d e}, T.Dir d → e ∈ T.slots d → e.isChild = true → e.getFirstCluster ≠ c) : Ok n (T.remove c) := by
  refine ⟨⟨?_,h.root.2⟩,fun {x e} hd he => ?_,fun {x i j e e'} hd => h.unique (dir_remove hd).2⟩
  · rw [remove_chain,Function.update_of_ne (Ne.symm h2)]
    exact h.root.1
  · have hd' := (dir_remove hd).2
    have hs := h.slot hd' he
    refine ⟨hs.number,hs.dot,hs.hollow,fun hc h0 => ?_⟩
    have hch := hs.child hc h0
    have hne := href hd' he hc
    refine ⟨?_,hch.notRoot,hch.kind,hch.parent,hch.depth,hch.dirSize,?_⟩
    · rw [remove_chain,Function.update_of_ne hne]
      exact hch.object
    · rw [remove_chain,Function.update_of_ne hne]
      exact hch.fileSize

theorem Tidy.remove (h : Tidy T) : Tidy (T.remove c) :=
  ⟨fun hd => h.dots (dir_remove hd).2,fun hd => h.stale (dir_remove hd).2⟩

/-- The slots of every directory have the property P. -/
def EachDir (P : List DirectoryEntry → Prop) (T : Tree) : Prop := ∀ d, T.Dir d → P (T.slots d)

namespace EachDir
variable {P : List DirectoryEntry → Prop}

theorem grow (h : T.EachDir P) (ho : T.chain o ≠ []) (hz : P (T.slots o) → P (T.slots o ++ z)) : (T.grow o c z).EachDir P := by
  intro d hd
  have hd' := h d (dir_grow hd ho)
  rw [grow_slots]
  by_cases hdo : d = o
  · subst hdo
    rw [Function.update_self]
    exact hz hd'
  · rwa [Function.update_of_ne hdo]

theorem setSlot (h : T.EachDir P) (hset : T.Dir d → P ((T.slots d).set k e)) : (T.setSlot d k e).EachDir P := by
  intro d' hd'
  rw [setSlot_slots]
  by_cases hdd : d' = d
  · subst hdd
    rw [Function.update_self]
    exact hset hd'
  · rw [Function.update_of_ne hdd]
    exact h d' hd'

theorem withChain {l : List Nat} (h : T.EachDir P) (hf : T.isDir o = false) : (T.withChain o l).EachDir P :=
  fun d hd => h d ((dir_withChain hf).mp hd)

theorem add (h : T.EachDir P) (hz : P z) : (T.add c b d z).EachDir P := by
  intro d' hd'
  rw [add_slots]
  rcases dir_add hd' with rfl | ⟨hne,hd'⟩
  · rwa [Function.update_self]
  · rw [Function.update_of_ne hne]
    exact h d' hd'

theorem remove (h : T.EachDir P) : (T.remove c).EachDir P := fun d hd => h d (dir_remove hd).2

end EachDir

end Tree
end MofuOS.Filesystem.Fat32
